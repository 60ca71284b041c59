import BoogyDb.HnswLists

/-!
# Nodes that stay linked

On layer 0 the list of a node has room for twice as many neighbors as an insertion selects.  As
long as no list is full, nothing is pruned: the new node is linked with each neighbor in both
directions, and every old link stays (`insert_links`).  So a graph in which every node leads to
every other one on layer 0 stays one (`Joined.of_links`).
-/

namespace BoogyDb

open Except

namespace LayeredGraph

/-- No node is deleted, and on layer 0 each leads to each. -/
structure Joined (g : LayeredGraph) : Prop where
  live : ∀ n < g.size, g.deleted n = false
  reaches : ∀ a < g.size, ∀ b < g.size, g.Reaches 0 a b

/-- A new node that is linked in both directions. -/
structure Links (g g' : LayeredGraph) (v : ℕ) : Prop where
  size : g'.size = g.size + 1
  new : v = g.size
  live : ∀ n < g'.size, g'.deleted n = false
  kept : ∀ a < g.size, g.neighbors a 0 ⊆ g'.neighbors a 0
  linked : 0 < g.size → ∃ x < g.size, x ∈ g'.neighbors v 0 ∧ v ∈ g'.neighbors x 0

variable {g g' : LayeredGraph} {v : ℕ}

/-- **A new node that is linked in both directions leads everywhere and is led to.** -/
theorem Joined.of_links (h : g.Joined) (hlinks : Links g g' v) (hg : g.Layered) : g'.Joined := by
  have hsize := hlinks.size
  have hnew := hlinks.new
  have hold : ∀ a < g.size, ∀ b < g.size, g'.Reaches 0 a b := by
    intro a ha b hb
    have hreach : ∀ {b : ℕ}, g.Reaches 0 a b → g'.Reaches 0 a b := by
      intro b hab
      induction hab with
      | refl => exact .refl
      | tail hac hedge ih =>
          have hc := (LayeredGraph.Reaches.on hac hg ⟨ha, Nat.zero_le _⟩).1
          exact ih.tail (hlinks.kept _ hc hedge)
    exact hreach (h.reaches a ha b hb)
  refine ⟨hlinks.live, fun a ha b hb => ?_⟩
  by_cases hav : a = v
  · by_cases hbv : b = v
    · rw [hav, hbv]
      exact .refl
    · have hb : b < g.size := by omega
      obtain ⟨x, hx, hxv, -⟩ := hlinks.linked (Nat.zero_lt_of_lt hb)
      rw [hav]
      exact (hold x hx b hb).head hxv
  · have ha : a < g.size := by omega
    by_cases hbv : b = v
    · obtain ⟨x, hx, -, hvx⟩ := hlinks.linked (Nat.zero_lt_of_lt ha)
      rw [hbv]
      exact (hold a ha x hx).tail hvx
    · exact hold a ha b (by omega)

end LayeredGraph

namespace Hnsw

variable {ε : Type} {dist : List UInt32 → List UInt32 → UInt32} {storage : VectorStorage ε}
  {order : HeapOrder} {g : LayeredGraph} {query : List UInt32} {m ef layer nodeId ep n : ℕ}
  {connections : List Connection} {r : InsertResult}

/-- A list with one more neighbor. -/
def withLink (nodeId : ℕ) (list : List ℕ) : List ℕ :=
  if nodeId ∈ list then list else list ++ [nodeId]

theorem subset_withLink (nodeId : ℕ) (list : List ℕ) : list ⊆ withLink nodeId list := by
  unfold withLink
  split
  · exact List.Subset.refl list
  · exact List.subset_append_left list [nodeId]

theorem mem_withLink (nodeId : ℕ) (list : List ℕ) : nodeId ∈ withLink nodeId list := by
  unfold withLink
  split
  · assumption
  · exact List.mem_append_right list (List.mem_singleton_self nodeId)

/-- A list that is not full is not pruned. -/
theorem linkBack_appends (hg : ReadsAs storage g) (hn : g.On layer n) {maxNeighbors : ℕ}
    (hshort : (g.neighbors n layer).length < maxNeighbors) :
    linkBack dist storage nodeId layer maxNeighbors n =
      .ok (n, layer, withLink nodeId (g.neighbors n layer)) := by
  have hlen : ¬ maxNeighbors < (withLink nodeId (g.neighbors n layer)).length := by
    unfold withLink
    split
    · omega
    · rw [List.length_append, List.length_singleton]
      omega
  unfold linkBack
  rw [hg.neighbors hn, Except.ok_bind]
  exact if_neg hlen

/-- The lists of layer 0 that link the node with those that are selected. -/
def linkLists (g : LayeredGraph) (nodeId : ℕ) (selected : List ℕ) : List Connection :=
  (nodeId, 0, selected) :: selected.map fun x => (x, 0, withLink nodeId (g.neighbors x 0))

/-- The nodes are live, and their lists on layer 0 are not full. -/
structure Roomy (g : LayeredGraph) (m : ℕ) : Prop where
  live : ∀ n < g.size, g.deleted n = false
  short : ∀ n, g.On 0 n → (g.neighbors n 0).length < 2 * m

/-- **On layer 0 some neighbors are selected, and each is linked.** -/
theorem insertLayer_links (hg : ReadsAs storage g) (hroomy : Roomy g m) (hm : 1 ≤ m)
    (hef : 0 < ef) (hn : g.On 0 n) :
    ∃ selected last, selected ≠ [] ∧
      insertLayer dist storage order nodeId query m ef (connections, n) 0 =
        .ok (connections ++ linkLists g nodeId selected, last) := by
  obtain ⟨candidates, hsearch, hfound, hids, hne⟩ :=
    @searchLayer_ok _ dist _ order _ query 0 (fun _ => true) ef hg n hn
  have hne := hne hef (hroomy.live n hn.1) rfl
  obtain ⟨chosen, filled, hselect, hchosen, hfilled, -⟩ :=
    @selectNeighbors_passes _ dist storage g.vector candidates (min (2 * m) m) hids
      fun c hc => hg.vector (hfound c hc).on.1
  have hperm := sortByDistance_perm candidates
  have hsome : chosen ++ filled ≠ [] := by
    cases hsorted : sortByDistance candidates with
    | nil =>
        rw [hsorted] at hperm
        exact absurd hperm.nil_eq.symm hne
    | cons c rest =>
        rw [hsorted] at hchosen hfilled hperm
        have hhead := hchosen.head hfilled ((hperm.map Prod.fst).nodup_iff.mpr hids) (by omega)
        intro hnil
        rw [hnil] at hhead
        cases hhead
  have hon : ∀ x ∈ chosen ++ filled, g.On 0 x := by
    intro x hx
    have hx : x ∈ (sortByDistance candidates).map Prod.fst := by
      rcases List.mem_append.mp hx with hx | hx
      · exact hchosen.sublist.subset hx
      · exact hfilled.sublist.subset hx
    obtain ⟨c, hc, rfl⟩ := List.mem_map.mp hx
    exact (hfound c (hperm.mem_iff.mp hc)).on
  have hlinks : (chosen ++ filled).mapM (linkBack dist storage nodeId 0 (2 * m)) =
      .ok ((chosen ++ filled).map fun x => (x, 0, withLink nodeId (g.neighbors x 0))) := by
    rw [mapM_eq_ok_iff, List.forall₂_map_right_iff]
    refine List.forall₂_same.mpr fun x hx => ?_
    exact linkBack_appends hg (hon x hx) (hroomy.short x (hon x hx))
  refine ⟨chosen ++ filled, (candidates.head?.map Prod.fst).getD n, hsome, ?_⟩
  unfold insertLayer
  dsimp only
  rw [hsearch, Except.ok_bind]
  rw [if_pos rfl, hselect, Except.ok_bind, hlinks]
  rfl

/-- The layers from the top down: only the last one writes lists of layer 0. -/
theorem insertLayers_links (hg : ReadsAs storage g) (hsimple : g.Simple) (hroomy : Roomy g m)
    (hm : 1 ≤ m) (hef : 0 < ef) {level : ℕ} (hnode : g.On level nodeId)
    (hunled : ¬ g.Leads ep nodeId) {top : ℕ} (htop : top ≤ level) (hcurrent : g.LedTo ep top n)
    (hconnections : ∀ c ∈ connections, c.2.1 ≠ 0) :
    ∃ selected above last, selected ≠ [] ∧ (∀ c ∈ above, c.2.1 ≠ 0) ∧
      (List.range (top + 1)).reverse.foldlM (insertLayer dist storage order nodeId query m ef)
        (connections, n) = .ok (above ++ linkLists g nodeId selected, last) := by
  induction top generalizing connections n with
  | zero =>
      obtain ⟨selected, last, hne, hrun⟩ := @insertLayer_links _ dist storage order g query m ef
        nodeId n connections hg hroomy hm hef hcurrent.1
      refine ⟨selected, connections, last, hne, hconnections, ?_⟩
      change (insertLayer dist storage order nodeId query m ef (connections, n) 0 >>= pure) = _
      rw [hrun]
      rfl
  | succ k ih =>
      obtain ⟨candidates, selected, links, -, -, hrun, hled, hlists⟩ :=
        @insertLayer_lists _ dist storage order g query m ef (k + 1) nodeId ep n connections hg
          hsimple (hnode.mono htop) hcurrent hunled
      have hwritten : ∀ c ∈ connections ++ (nodeId, k + 1, selected) :: links, c.2.1 ≠ 0 := by
        intro c hc
        rcases List.mem_append.mp hc with hc | hc
        · exact hconnections c hc
        · rcases List.mem_cons.mp hc with rfl | hc
          · exact Nat.succ_ne_zero k
          · rw [(hlists.lists c hc).1]
            exact Nat.succ_ne_zero k
      obtain ⟨selected₀, above, last, hne, habove, hrest⟩ :=
        ih (by omega) ((hg.stays ep).mono hled (Nat.le_succ k)) hwritten
      refine ⟨selected₀, above, last, hne, habove, ?_⟩
      rw [List.range_succ, List.reverse_append, List.reverse_singleton, List.singleton_append,
        List.foldlM_cons, hrun, Except.ok_bind, hrest]

/-- **The lists of layer 0 that an insertion brings about**: some neighbors are selected, and each
is linked. -/
theorem insert_links (hg : ReadsAs storage g) (hsimple : g.Simple) (hroomy : Roomy g m)
    (hm : 1 ≤ m) (hef : 0 < ef) {level currentMaxLayer : ℕ} (hnode : g.On level nodeId)
    (hentry : g.On currentMaxLayer ep) (hunled : ¬ g.Leads ep nodeId)
    (hrun : insert dist storage order nodeId level (some ep) currentMaxLayer m ef = .ok r) :
    ∃ selected, selected ≠ [] ∧
      ∀ n list, (n, 0, list) ∈ r.connections ↔ (n, 0, list) ∈ linkLists g nodeId selected := by
  obtain ⟨current, hdescend, -⟩ :=
    @descendTo_ok _ dist _ _ (g.vector nodeId) hg ep currentMaxLayer level hentry
  have hstart : g.LedTo ep (min level currentMaxLayer) current :=
    (descendTo_stays (ReadsGood.anyError storage) (hg.stays ep) ⟨hentry, .refl⟩).ok hdescend
  obtain ⟨selected, above, last, hne, habove, hlayers⟩ :=
    @insertLayers_links _ dist storage order g (g.vector nodeId) m ef nodeId ep current [] hg
      hsimple hroomy hm hef level hnode hunled (min level currentMaxLayer) (min_le_left _ _) hstart
      nofun
  have hconnections : r.connections = above ++ linkLists g nodeId selected := by
    unfold insert at hrun
    dsimp only at hrun
    rw [hg.vector hnode.1, Except.ok_bind, hdescend, Except.ok_bind, hlayers, Except.ok_bind] at hrun
    dsimp only at hrun
    split at hrun <;>
      · cases hrun
        rfl
  refine ⟨selected, hne, fun n list => ?_⟩
  rw [hconnections, List.mem_append]
  exact or_iff_right fun habove' => habove _ habove' rfl

end Hnsw

end BoogyDb
