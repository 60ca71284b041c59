import BoogyDb.HnswReads
import Mathlib.Logic.Relation

/-!
# What leads where in a graph

`Leads g a b` says that the lists of the graph lead from `a` to `b`, on whatever layers.  The
nodes that the entry point leads to are closed under reading (`ReadsAs.stays`), so an insertion
only finds such nodes: the list that it writes for the new node names only these, and each
other list names what it named before, and the new node (`insert_names`).
-/

namespace BoogyDb

open Except

namespace LayeredGraph

/-- A list of `a` names `b`. -/
def Edge (g : LayeredGraph) (a b : ℕ) : Prop := ∃ layer, g.On layer a ∧ b ∈ g.neighbors a layer

/-- The lists lead from the one node to the other. -/
def Leads (g : LayeredGraph) : ℕ → ℕ → Prop := Relation.ReflTransGen g.Edge

/-- The nodes of a layer that `start` leads to. -/
def LedTo (g : LayeredGraph) (start layer n : ℕ) : Prop := g.On layer n ∧ g.Leads start n

variable {g g' : LayeredGraph} {start n : ℕ}

/-- **What a new edge can lead to**, when each names the node `v` or follows the old ones. -/
theorem Leads.of_edges {P : ℕ → Prop} (h : g.Leads start n) (hstart : P start)
    (hedge : ∀ a b, P a → g.Edge a b → P b) : P n := by
  induction h with
  | refl => exact hstart
  | tail _ hab ih => exact hedge _ _ ih hab

/-- A counted node leads to counted nodes. -/
theorem Leads.lt (h : g.Leads start n) (hg : g.Layered) (hstart : start < g.size) : n < g.size :=
  h.of_edges hstart fun a b _ ⟨layer, hon, hb⟩ => (hg layer a hon b hb).1

end LayeredGraph

/-- The nodes that are led to are closed under reading. -/
theorem ReadsAs.stays {ε : Type} {storage : VectorStorage ε} {g : LayeredGraph}
    (hg : ReadsAs storage g) (start : ℕ) : Hnsw.StaysIn storage (g.LedTo start) where
  neighbors layer n list hn hread x hx := by
    rw [hg.neighbors hn.1] at hread
    cases hread
    exact ⟨hg.layered layer n hn.1 x hx, hn.2.tail ⟨layer, hn.1, hx⟩⟩
  below layer n hn := ⟨hn.1.mono (Nat.le_succ layer), hn.2⟩

namespace Hnsw

variable {ε : Type} {E : ε → Prop} {dist : List UInt32 → List UInt32 → UInt32}
  {storage : VectorStorage ε} {query : List UInt32} {order : HeapOrder} {R : ℕ → ℕ → Prop}
  {layer nodeId : ℕ}

/-- The list of the new node names nodes of `R`, and another names what it named before and the
new node. -/
def Names (storage : VectorStorage ε) (R : ℕ → ℕ → Prop) (nodeId : ℕ) (c : Connection) : Prop :=
  c.1 = nodeId ∧ (∀ x ∈ c.2.2, R c.2.1 x) ∨
    ∃ old, storage.neighbors c.1 c.2.1 = .ok old ∧ ∀ x ∈ c.2.2, x ∈ old ∨ x = nodeId

section

variable (h : ReadsGood E storage) (hR : StaysIn storage R)

include h

theorem scoreLive_mem (neighbors : List ℕ) :
    Good E (fun scored => ∀ c ∈ scored, c.1 ∈ neighbors)
      (scoreLive dist storage query neighbors) := by
  induction neighbors with
  | nil => exact fun c hc => absurd hc List.not_mem_nil
  | cons x neighbors ih =>
      unfold scoreLive
      refine (h.isDeleted x).bind fun deleted _ => good_ite (fun _ => ?_) fun _ => ?_
      · exact ih.mono fun scored hscored c hc => List.mem_cons_of_mem _ (hscored c hc)
      · refine (distanceTo_good h x).bind fun d _ => ih.bind fun scored hscored => ?_
        intro c hc
        rcases List.mem_cons.mp hc with rfl | hc
        · exact List.mem_cons_self
        · exact List.mem_cons_of_mem _ (hscored c hc)

theorem pruneNeighbors_mem (n : ℕ) (neighbors : List ℕ) (m : ℕ) :
    Good E (fun out => ∀ x ∈ out, x ∈ neighbors)
      (pruneNeighbors dist storage n neighbors m) := by
  unfold pruneNeighbors
  refine (h.vector n).bind fun nodeVec _ => (scoreLive_mem h neighbors).bind fun scored hscored => ?_
  refine (selectNeighbors_mem h scored m).mono fun out hout x hx => ?_
  obtain ⟨c, hc, rfl⟩ := List.mem_map.mp (hout x hx)
  exact hscored c hc

/-- A list that is linked back names what it named before, and the new node. -/
theorem linkBack_names (maxNeighbors neighbor : ℕ) :
    Good E (Names storage R nodeId) (linkBack dist storage nodeId layer maxNeighbors neighbor) := by
  unfold linkBack
  refine (h.neighbors neighbor layer).with_eq.bind fun old ⟨_, hread⟩ => ?_
  dsimp only
  have hlinked : ∀ x ∈ (if nodeId ∈ old then old else old ++ [nodeId]), x ∈ old ∨ x = nodeId := by
    intro x hx
    split at hx
    · exact Or.inl hx
    · exact (List.mem_append.mp hx).imp_right List.mem_singleton.mp
  refine good_ite (fun _ => ?_) fun _ => Or.inr ⟨old, hread, hlinked⟩
  refine (pruneNeighbors_mem h neighbor _ maxNeighbors).bind fun pruned hpruned => ?_
  exact Or.inr ⟨old, hread, fun x hx => hlinked x (hpruned x hx)⟩

include hR

theorem insertLayer_names {m ef : ℕ} {state : List Connection × ℕ} (hep : R layer state.2)
    (hstate : ∀ c ∈ state.1, Names storage R nodeId c) :
    Good E (fun state' => R layer state'.2 ∧ ∀ c ∈ state'.1, Names storage R nodeId c)
      (insertLayer dist storage order nodeId query m ef state layer) := by
  have hin : ∀ ep ∈ [state.2], R layer ep := fun ep hmem => List.mem_singleton.mp hmem ▸ hep
  unfold insertLayer
  dsimp only
  refine (searchLayer_stays h hR _ ef hin).bind fun candidates hcandidates => ?_
  refine (selectNeighbors_mem h candidates _).bind fun selected hselected => ?_
  have hlink : ∀ x ∈ selected, Good E (Names storage R nodeId)
      (linkBack dist storage nodeId layer (if layer = 0 then 2 * m else m) x) := fun x _ =>
    linkBack_names h _ x
  refine (good_mapM selected hlink).bind fun links hlinks => ?_
  refine ⟨?_, fun c hc => ?_⟩
  · cases candidates with
    | nil => exact hep
    | cons c candidates => exact (hcandidates c List.mem_cons_self).1
  · rcases List.mem_append.mp hc with hc | hc
    · exact hstate c hc
    · rcases List.mem_cons.mp hc with rfl | hc
      · refine Or.inl ⟨rfl, fun x hx => ?_⟩
        obtain ⟨c, hc, rfl⟩ := List.mem_map.mp (hselected x hx)
        exact (hcandidates c hc).1
      · exact hlinks c hc

/-- **What the lists of an insertion name.** -/
theorem insert_names {level currentMaxLayer m ef : ℕ} {entryPoint : Option ℕ}
    (hentry : ∀ ep, entryPoint = some ep → R currentMaxLayer ep) :
    Good E (fun r => ∀ c ∈ r.connections, Names storage R nodeId c)
      (insert dist storage order nodeId level entryPoint currentMaxLayer m ef) := by
  unfold insert
  cases entryPoint with
  | none =>
      intro c hc
      obtain ⟨l, -, rfl⟩ := List.mem_map.mp hc
      exact Or.inl ⟨rfl, nofun⟩
  | some ep =>
      -- the layers that are left, from the top down
      have hlayers : ∀ (query : List UInt32) (k : ℕ) (state : List Connection × ℕ),
          (∀ l, l + 1 = k → R l state.2) → (∀ c ∈ state.1, Names storage R nodeId c) →
          Good E (fun state' => ∀ c ∈ state'.1, Names storage R nodeId c)
            ((List.range k).reverse.foldlM (insertLayer dist storage order nodeId query m ef)
              state) := by
        intro query k
        induction k with
        | zero => exact fun state _ hstate => hstate
        | succ k ih =>
            intro state hep hstate
            rw [List.range_succ, List.reverse_append, List.reverse_singleton,
              List.singleton_append, List.foldlM_cons]
            refine (insertLayer_names h hR (hep k rfl) hstate).bind
              fun state' ⟨hep', hstate'⟩ => ih state' (fun l hl => ?_) hstate'
            exact hR.mono hep' (by omega)
      refine (h.vector nodeId).bind fun query _ => ?_
      refine (descendTo_stays h hR (hentry ep rfl)).bind fun currentEp hcurrent => ?_
      dsimp only
      have hstart : ∀ l, l + 1 = min level currentMaxLayer + 1 → R l currentEp := by
        intro l hl
        rwa [Nat.succ.inj hl]
      refine (hlayers query _ ([], currentEp) hstart nofun).bind fun state hstate => ?_
      exact good_ite (fun _ => hstate) fun _ => hstate

end

end Hnsw

end BoogyDb
