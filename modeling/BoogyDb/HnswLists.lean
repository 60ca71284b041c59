import BoogyDb.HnswLinks
import BoogyDb.NeighborSelection

/-!
# The lists of an insertion

`insert` goes through the layers from the top down.  On each it selects neighbors among what a
search finds, and makes a list for the new node and one for each neighbor.  The new node is not
meant to find itself: when the entry point does not lead to it, no two of these lists are for the
same node and layer, so the order in which they are written does not matter
(`insert_lists`).

`selectedNeighbors` makes the same searches and keeps only what is selected.
-/

namespace BoogyDb

open Except

namespace LayeredGraph

/-- A list names no node twice, and not its own. -/
def Simple (g : LayeredGraph) : Prop :=
  ∀ layer n, g.On layer n → (g.neighbors n layer).Nodup ∧ n ∉ g.neighbors n layer

end LayeredGraph

namespace Hnsw

section

variable {ε : Type} (dist : List UInt32 → List UInt32 → UInt32) (storage : VectorStorage ε)
  (order : HeapOrder)

/-- The neighbors that are selected on these layers, one after the other. -/
def selectLayers (query : List UInt32) (m efConstruction : ℕ) :
    List ℕ → ℕ → Except ε (List (ℕ × List ℕ))
  | [], _ => pure []
  | layer :: layers, currentEp => do
      let maxNeighbors := if layer = 0 then 2 * m else m
      let candidates ← searchLayer dist storage order [currentEp] query efConstruction layer
        fun _ => true
      let selected ← selectNeighbors dist storage candidates (min maxNeighbors m)
      let below ← selectLayers query m efConstruction layers
        ((candidates.head?.map Prod.fst).getD currentEp)
      pure ((layer, selected) :: below)

/-- The neighbors that an insertion selects, for each layer on which it selects some. -/
def selectedNeighbors (nodeId level : ℕ) (entryPoint : Option ℕ)
    (currentMaxLayer m efConstruction : ℕ) : Except ε (List (ℕ × List ℕ)) := do
  match entryPoint with
  | none => pure []
  | some ep => do
      let query ← storage.vector nodeId
      let currentEp ← descendTo dist storage ep query currentMaxLayer level
      selectLayers dist storage order query m efConstruction
        (List.range (min level currentMaxLayer + 1)).reverse currentEp

end

/-- At most one list for a node and a layer, and none that is too long or names a node twice or its
own. -/
structure WellFormed (m : ℕ) (connections : List Connection) : Prop where
  keys : (connections.map fun c => (c.1, c.2.1)).Nodup
  own : ∀ c ∈ connections, c.1 ∉ c.2.2
  nodup : ∀ c ∈ connections, c.2.2.Nodup
  length_le : ∀ c ∈ connections, c.2.2.length ≤ if c.2.1 = 0 then 2 * m else m

/-- The lists of the new node are those that are selected. -/
structure Announces (nodeId : ℕ) (selected : List (ℕ × List ℕ)) (connections : List Connection) :
    Prop where
  lists : ∀ layer list, (nodeId, layer, list) ∈ connections → (selected.lookup layer).getD [] = list
  all : ∀ layer list, selected.lookup layer = some list → (nodeId, layer, list) ∈ connections

variable {ε : Type} {dist : List UInt32 → List UInt32 → UInt32} {storage : VectorStorage ε}
  {order : HeapOrder} {g : LayeredGraph} {query : List UInt32} {m ef layer nodeId ep n : ℕ}
  {connections : List Connection} {selected : List ℕ} {r : InsertResult}

theorem ReadsGood.anyError (storage : VectorStorage ε) : ReadsGood (fun _ => True) storage where
  vector n := by cases storage.vector n <;> trivial
  neighbors n layer := by cases storage.neighbors n layer <;> trivial
  isDeleted n := by cases storage.isDeleted n <;> trivial
  stuck := trivial

/-! ## One list -/

/-- Pruning names no node twice. -/
theorem pruneNeighbors_nodup (hg : ReadsAs storage g) (hn : n < g.size) {current out : List ℕ}
    (hcurrent : ∀ x ∈ current, x < g.size) (hnodup : current.Nodup)
    (hrun : pruneNeighbors dist storage n current m = .ok out) : out.Nodup := by
  set scored := (current.filter fun x => !g.deleted x).map fun x =>
    (x, dist (g.vector n) (g.vector x)) with hscored
  have hids : scored.map Prod.fst = current.filter fun x => !g.deleted x := by
    rw [hscored, List.map_map]
    exact List.map_id _
  have hlt : ∀ c ∈ scored, c.1 < g.size := by
    intro c hc
    have hmem : c.1 ∈ scored.map Prod.fst := List.mem_map_of_mem hc
    rw [hids] at hmem
    exact hcurrent c.1 (List.mem_filter.mp hmem).1
  unfold pruneNeighbors at hrun
  rw [hg.vector hn, Except.ok_bind, scoreLive_ok hg hcurrent, Except.ok_bind, ← hscored] at hrun
  obtain ⟨chosen, filled, hselect, -, -, hout⟩ :=
    @selectNeighbors_passes _ dist storage g.vector scored m (hids ▸ hnodup.filter _)
      fun c hc => hg.vector (hlt c hc)
  rw [hselect] at hrun
  exact Except.ok.inj hrun ▸ hout

/-- A list that is linked back names no node twice, and not its own. -/
theorem linkBack_simple (hg : ReadsAs storage g) (hsimple : g.Simple) (hnode : g.On layer nodeId)
    (hn : g.On layer n) (hne : n ≠ nodeId) {maxNeighbors : ℕ} {c : Connection}
    (hrun : linkBack dist storage nodeId layer maxNeighbors n = .ok c) :
    c.1 = n ∧ c.2.1 = layer ∧ n ∉ c.2.2 ∧ c.2.2.Nodup := by
  obtain ⟨hnodup, hown⟩ := hsimple layer n hn
  set linked := if nodeId ∈ g.neighbors n layer then g.neighbors n layer
    else g.neighbors n layer ++ [nodeId] with hlinked
  have hlinkedNodup : linked.Nodup := by
    rw [hlinked]
    split
    · exact hnodup
    · rename_i hnew
      exact List.nodup_append.mpr ⟨hnodup, List.nodup_singleton _, fun a ha b hb heq =>
        hnew (List.mem_singleton.mp hb ▸ heq ▸ ha)⟩
  have hlinkedOwn : n ∉ linked := by
    rw [hlinked]
    split
    · exact hown
    · rw [List.mem_append, List.mem_singleton]
      exact not_or.mpr ⟨hown, hne⟩
  have hlinkedOn : ∀ x ∈ linked, x < g.size := by
    intro x hx
    rw [hlinked] at hx
    split at hx
    · exact (hg.layered layer n hn x hx).1
    · rcases List.mem_append.mp hx with hx | hx
      · exact (hg.layered layer n hn x hx).1
      · exact List.mem_singleton.mp hx ▸ hnode.1
  unfold linkBack at hrun
  rw [hg.neighbors hn, Except.ok_bind] at hrun
  dsimp only at hrun
  rw [← hlinked] at hrun
  split at hrun
  · obtain ⟨out, hprune, hmem, -⟩ := @pruneNeighbors_ok _ dist _ _ n
      maxNeighbors hg linked hn.1 hlinkedOn
    rw [hprune, Except.ok_bind] at hrun
    cases hrun
    exact ⟨rfl, rfl, fun h => hlinkedOwn (hmem n h),
      pruneNeighbors_nodup hg hn.1 hlinkedOn hlinkedNodup hprune⟩
  · cases hrun
    exact ⟨rfl, rfl, hlinkedOwn, hlinkedNodup⟩

/-! ## One layer -/

/-- The list of the new node on a layer, and those that are linked back. -/
structure LayerLists (nodeId layer : ℕ) (selected : List ℕ) (links : List Connection) : Prop where
  nodup : selected.Nodup
  own : nodeId ∉ selected
  nodes : links.map Prod.fst = selected
  lists : ∀ c ∈ links, c.2.1 = layer ∧ c.1 ∉ c.2.2 ∧ c.2.2.Nodup

/-- **A layer is searched without finding the new node**, and each list is for another node. -/
theorem insertLayer_lists (hg : ReadsAs storage g) (hsimple : g.Simple) (hnode : g.On layer nodeId)
    (hcurrent : g.LedTo ep layer n) (hunled : ¬ g.Leads ep nodeId) :
    ∃ candidates selected links,
      searchLayer dist storage order [n] query ef layer (fun _ => true) = .ok candidates ∧
      selectNeighbors dist storage candidates (min (if layer = 0 then 2 * m else m) m) =
        .ok selected ∧
      insertLayer dist storage order nodeId query m ef (connections, n) layer =
        .ok (connections ++ (nodeId, layer, selected) :: links,
          (candidates.head?.map Prod.fst).getD n) ∧
      g.LedTo ep layer ((candidates.head?.map Prod.fst).getD n) ∧
      LayerLists nodeId layer selected links := by
  obtain ⟨candidates, hsearch, hfound, hids, -⟩ :=
    @searchLayer_ok _ dist _ order _ query layer (fun _ => true) ef hg n hcurrent.1
  -- what is found is led to, and the new node is not
  have hled : ∀ c ∈ candidates, g.LedTo ep layer c.1 := by
    have hstart : ∀ x ∈ [n], g.LedTo ep layer x := fun x hx => List.mem_singleton.mp hx ▸ hcurrent
    have hstays : Good (fun _ => True) (fun found => ∀ c ∈ found,
        Returned storage (g.LedTo ep) layer c.1)
        (searchLayer dist storage order [n] query ef layer fun _ => true) :=
      searchLayer_stays (ReadsGood.anyError storage) (hg.stays ep) _ ef hstart
    exact fun c hc => (hstays.ok hsearch c hc).1
  obtain ⟨chosen, filled, hselect, hchosen, hfilled, hnodup⟩ :=
    @selectNeighbors_passes _ dist storage g.vector candidates
      (min (if layer = 0 then 2 * m else m) m) hids fun c hc => hg.vector (hfound c hc).on.1
  have hmem : ∀ x ∈ chosen ++ filled, g.LedTo ep layer x := by
    intro x hx
    have hx : x ∈ (sortByDistance candidates).map Prod.fst := by
      rcases List.mem_append.mp hx with hx | hx
      · exact hchosen.sublist.subset hx
      · exact hfilled.sublist.subset hx
    obtain ⟨c, hc, rfl⟩ := List.mem_map.mp hx
    exact hled c ((sortByDistance_perm candidates).mem_iff.mp hc)
  have hown : nodeId ∉ chosen ++ filled := fun hin => hunled (hmem nodeId hin).2
  have hlinks : ∀ ids : List ℕ, (∀ x ∈ ids, g.On layer x ∧ x ≠ nodeId) → ∃ links,
      ids.mapM (linkBack dist storage nodeId layer (if layer = 0 then 2 * m else m)) = .ok links ∧
        links.map Prod.fst = ids ∧ ∀ c ∈ links, c.2.1 = layer ∧ c.1 ∉ c.2.2 ∧ c.2.2.Nodup := by
    intro ids hids
    induction ids with
    | nil => exact ⟨[], rfl, rfl, nofun⟩
    | cons x ids ih =>
        rw [List.forall_mem_cons] at hids
        obtain ⟨⟨hx, hne⟩, hids⟩ := hids
        obtain ⟨list, hlink, -⟩ := @linkBack_ok _ dist _ _ layer nodeId hg x
          (if layer = 0 then 2 * m else m) hnode hx
        obtain ⟨-, -, hself, hlist⟩ := linkBack_simple hg hsimple hnode hx hne hlink
        obtain ⟨links, hrest, hnodes, hall⟩ := ih hids
        refine ⟨(x, layer, list) :: links, ?_, by rw [List.map_cons, hnodes],
          List.forall_mem_cons.mpr ⟨⟨rfl, hself, hlist⟩, hall⟩⟩
        rw [List.mapM_cons, hlink, Except.ok_bind, hrest]
        rfl
  obtain ⟨links, hrun, hnodes, hlists⟩ := hlinks (chosen ++ filled) fun x hx =>
    ⟨(hmem x hx).1, ne_of_mem_of_not_mem hx hown⟩
  refine ⟨candidates, chosen ++ filled, links, hsearch, hselect, ?_, ?_, hnodup, hown, hnodes, hlists⟩
  · unfold insertLayer
    dsimp only
    rw [hsearch, Except.ok_bind, hselect, Except.ok_bind, hrun]
    rfl
  · cases candidates with
    | nil => exact hcurrent
    | cons c candidates => exact hled c List.mem_cons_self

/-! ## All layers -/

/-- The lists for the layers below `top`. -/
structure ListsBelow (nodeId top : ℕ) (selected : List (ℕ × List ℕ))
    (connections : List Connection) : Prop where
  keys : (connections.map fun c => (c.1, c.2.1)).Nodup
  own : ∀ c ∈ connections, c.1 ∉ c.2.2
  nodup : ∀ c ∈ connections, c.2.2.Nodup
  layers : ∀ c ∈ connections, c.2.1 < top
  announces : Announces nodeId selected connections

theorem ListsBelow.nil : ListsBelow nodeId 0 [] [] :=
  ⟨List.nodup_nil, nofun, nofun, nofun, nofun, nofun⟩

/-- The lists of one more layer come first. -/
theorem ListsBelow.cons {links : List Connection} {below : List (ℕ × List ℕ)}
    (h : ListsBelow nodeId layer below connections)
    (hlists : LayerLists nodeId layer selected links) :
    ListsBelow nodeId (layer + 1) ((layer, selected) :: below)
      ((nodeId, layer, selected) :: links ++ connections) := by
  have hlinkNode : ∀ c ∈ links, c.1 ∈ selected := fun c hc =>
    hlists.nodes ▸ List.mem_map_of_mem hc
  have hlinkKeys : links.map (fun c => (c.1, c.2.1)) = selected.map fun x => (x, layer) := by
    rw [← hlists.nodes, List.map_map]
    exact List.map_congr_left fun c hc => by rw [(hlists.lists c hc).1]; rfl
  -- the layers below have no list of this layer, so no two lists meet
  have hbelowLayer : ∀ x, (x, layer) ∉ connections.map fun c => (c.1, c.2.1) := by
    intro x hx
    obtain ⟨c, hc, heq⟩ := List.mem_map.mp hx
    have hlt := h.layers c hc
    rw [(Prod.mk.inj heq).2] at hlt
    exact lt_irrefl _ hlt
  refine ⟨?_, ?_, ?_, ?_, fun l list hmem => ?_, fun l list hlookup => ?_⟩
  · rw [List.map_append, List.map_cons, hlinkKeys, List.cons_append, List.nodup_cons]
    refine ⟨?_, List.nodup_append.mpr ⟨?_, h.keys, ?_⟩⟩
    · rw [List.mem_append, not_or]
      refine ⟨fun hin => ?_, hbelowLayer nodeId⟩
      obtain ⟨x, hx, heq⟩ := List.mem_map.mp hin
      have hnode : x = nodeId := (Prod.mk.inj heq).1
      exact hlists.own (hnode ▸ hx)
    · exact hlists.nodup.map fun a b heq => (Prod.mk.inj heq).1
    · intro a ha b hb heq
      obtain ⟨x, -, rfl⟩ := List.mem_map.mp ha
      exact hbelowLayer x (heq ▸ hb)
  · intro c hc
    rcases List.mem_append.mp hc with hc | hc
    · rcases List.mem_cons.mp hc with rfl | hc
      · exact hlists.own
      · exact (hlists.lists c hc).2.1
    · exact h.own c hc
  · intro c hc
    rcases List.mem_append.mp hc with hc | hc
    · rcases List.mem_cons.mp hc with rfl | hc
      · exact hlists.nodup
      · exact (hlists.lists c hc).2.2
    · exact h.nodup c hc
  · intro c hc
    rcases List.mem_append.mp hc with hc | hc
    · rcases List.mem_cons.mp hc with rfl | hc
      · exact Nat.lt_succ_self layer
      · exact (hlists.lists c hc).1 ▸ Nat.lt_succ_self layer
    · exact (h.layers c hc).trans (Nat.lt_succ_self layer)
  · rcases List.mem_append.mp hmem with hmem | hmem
    · rcases List.mem_cons.mp hmem with heq | hmem
      · cases heq
        rw [List.lookup_cons_self]
        rfl
      · exact absurd (hlinkNode _ hmem) hlists.own
    · have hlt : l < layer := h.layers _ hmem
      rw [List.lookup_cons, beq_eq_false_iff_ne.mpr hlt.ne]
      exact h.announces.lists l list hmem
  · rw [List.lookup_cons] at hlookup
    by_cases heq : l = layer
    · subst heq
      rw [beq_self_eq_true] at hlookup
      cases hlookup
      exact List.mem_cons_self
    · rw [beq_eq_false_iff_ne.mpr heq] at hlookup
      exact List.mem_append_right _ (h.announces.all l list hlookup)

/-- The layers from the top down. -/
theorem insertLayers_lists (hg : ReadsAs storage g) (hsimple : g.Simple) {level : ℕ}
    (hnode : g.On level nodeId) (hunled : ¬ g.Leads ep nodeId) {top : ℕ} (htop : top ≤ level + 1)
    (hcurrent : ∀ l, l + 1 = top → g.LedTo ep l n) :
    ∃ selected written last,
      (List.range top).reverse.foldlM (insertLayer dist storage order nodeId query m ef)
        (connections, n) = .ok (connections ++ written, last) ∧
      selectLayers dist storage order query m ef (List.range top).reverse n = .ok selected ∧
      ListsBelow nodeId top selected written := by
  induction top generalizing connections n with
  | zero => exact ⟨[], [], n, by rw [List.append_nil]; rfl, rfl, .nil⟩
  | succ k ih =>
      obtain ⟨candidates, selected, links, hsearch, hselect, hrun, hled, hlists⟩ :=
        @insertLayer_lists _ dist storage order g query m ef k nodeId ep n connections hg hsimple
          (hnode.mono (by omega)) (hcurrent k rfl) hunled
      obtain ⟨below, written, last, hrest, hselectRest, hbelow⟩ :=
        @ih _ (connections ++ (nodeId, k, selected) :: links) (by omega) fun l hl =>
          (hg.stays ep).mono hled (by omega)
      refine ⟨(k, selected) :: below, (nodeId, k, selected) :: links ++ written, last, ?_, ?_,
        hbelow.cons hlists⟩
      · rw [List.range_succ, List.reverse_append, List.reverse_singleton, List.singleton_append,
          List.foldlM_cons, hrun, Except.ok_bind, hrest, List.append_assoc]
      · rw [List.range_succ, List.reverse_append, List.reverse_singleton, List.singleton_append]
        unfold selectLayers
        dsimp only
        rw [hsearch, Except.ok_bind, hselect, Except.ok_bind, hselectRest]
        rfl

/-- **An insertion of a node that the entry point does not lead to makes well formed lists**, and
those of the new node are what is selected. -/
theorem insert_lists (hg : ReadsAs storage g) (hsimple : g.Simple) {level currentMaxLayer : ℕ}
    {entryPoint : Option ℕ} (hnode : g.On level nodeId)
    (hentry : ∀ ep, entryPoint = some ep → g.On currentMaxLayer ep)
    (hunled : ∀ ep, entryPoint = some ep → ¬ g.Leads ep nodeId)
    (hrun : insert dist storage order nodeId level entryPoint currentMaxLayer m ef = .ok r) :
    WellFormed m r.connections ∧ ∃ selected,
      selectedNeighbors dist storage order nodeId level entryPoint currentMaxLayer m ef =
        .ok selected ∧ Announces nodeId selected r.connections := by
  have hlength : ∀ c ∈ r.connections, c.2.2.length ≤ if c.2.1 = 0 then 2 * m else m := by
    obtain ⟨r', hrun', hinserts⟩ := @insert_ok _ dist _ order _ m nodeId level hg entryPoint
      currentMaxLayer ef hnode hentry
    rw [hrun] at hrun'
    cases hrun'
    exact fun c hc => (hinserts.connects c hc).length_le
  cases entryPoint with
  | none =>
      unfold insert at hrun
      cases hrun
      have hkeys : ((List.range (level + 1)).map fun l => (nodeId, l)).Nodup :=
        List.nodup_range.map fun a b heq => (Prod.mk.inj heq).2
      have hempty : ∀ c ∈ (List.range (level + 1)).map fun l => ((nodeId, l, []) : Connection),
          c.2.2 = [] := by
        intro c hc
        obtain ⟨l, -, rfl⟩ := List.mem_map.mp hc
        rfl
      refine ⟨⟨?_, fun c hc => ?_, fun c hc => ?_, hlength⟩, [], rfl, fun l list hmem => ?_, nofun⟩
      · rw [List.map_map]
        exact hkeys
      · rw [hempty c hc]
        exact List.not_mem_nil
      · rw [hempty c hc]
        exact List.nodup_nil
      · exact (hempty _ hmem).symm
  | some ep =>
      obtain ⟨current, hcurrent, -⟩ :=
        @descendTo_ok _ dist _ _ (g.vector nodeId) hg ep currentMaxLayer level (hentry ep rfl)
      have hstart : g.LedTo ep (min level currentMaxLayer) current :=
        (descendTo_stays (ReadsGood.anyError storage) (hg.stays ep) ⟨hentry ep rfl, .refl⟩).ok hcurrent
      obtain ⟨selected, written, last, hlayers, hselect, hbelow⟩ :=
        @insertLayers_lists _ dist storage order g (g.vector nodeId) m ef nodeId ep current [] hg
          hsimple level hnode (hunled ep rfl) (min level currentMaxLayer + 1) (by omega)
          fun l hl => (Nat.succ.inj hl) ▸ hstart
      rw [List.nil_append] at hlayers
      have hconnections : r.connections = written := by
        unfold insert at hrun
        dsimp only at hrun
        rw [hg.vector hnode.1, Except.ok_bind, hcurrent, Except.ok_bind, hlayers, Except.ok_bind] at hrun
        dsimp only at hrun
        split at hrun <;>
          · cases hrun
            rfl
      rw [hconnections] at hlength ⊢
      refine ⟨⟨hbelow.keys, hbelow.own, hbelow.nodup, hlength⟩, selected, ?_, hbelow.announces⟩
      unfold selectedNeighbors
      dsimp only
      rw [hg.vector hnode.1, Except.ok_bind, hcurrent, Except.ok_bind, hselect]

end Hnsw

end BoogyDb
