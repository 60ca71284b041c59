import BoogyDb.Error
import BoogyDb.Lib.Binary32
import Mathlib.Data.List.Sort

/-!
# The layered graph of a vector collection

`search` descends greedily through the upper layers and then runs a beam search on
layer 0.  `insert` computes the lists that a new node brings about; the caller writes
them.

A distance is the bit pattern of a float and `dist` is the distance function.  The graph
is read through a `VectorStorage`, whose reads can fail with any kind of error `ε`.  A
`BinaryHeap` is a list from which the greatest element is taken.

`into_iter` visits a heap in an order of its own, the `HeapOrder`; it decides between results
at the same distance.

A loop gets `loopFuel` turns.  Node ids are 32-bit numbers, so that no loop needs more;
one that did would end as `stuck`.
-/

namespace BoogyDb

/-- How the graph is read. -/
structure VectorStorage (ε : Type) where
  vector : ℕ → Except ε (List UInt32)
  neighbors : ℕ → ℕ → Except ε (List ℕ)
  isDeleted : ℕ → Except ε Bool
  /-- What a loop ends with when its turns are used up. -/
  stuck : ε

/-- A node with its distance from the query. -/
structure Candidate where
  distance : UInt32
  nodeId : ℕ
deriving DecidableEq

/-- `distance.partial_cmp(..).unwrap_or(Equal)`. -/
def cmpDistance (a b : UInt32) : Ordering := (Binary32.partialCmp a b).getD .eq

/-- `FarCandidate::cmp`: the furthest is the greatest. -/
def Candidate.farCmp (a b : Candidate) : Ordering :=
  (cmpDistance a.distance b.distance).then (compare a.nodeId b.nodeId)

/-- `Candidate::cmp`: the closest is the greatest. -/
def Candidate.closeCmp (a b : Candidate) : Ordering :=
  (cmpDistance b.distance a.distance).then (compare b.nodeId a.nodeId)

/-- `BinaryHeap::pop`: a greatest element, and the others. -/
def popMax {α : Type} (cmp : α → α → Ordering) : List α → Option (α × List α)
  | [] => none
  | a :: as =>
      match popMax cmp as with
      | none => some (a, [])
      | some (b, rest) => if cmp a b = .lt then some (b, a :: rest) else some (a, b :: rest)

/-- The order in which `BinaryHeap::into_iter` visits a heap. -/
structure HeapOrder where
  intoIter : List Candidate → List Candidate
  perm : ∀ heap, (intoIter heap).Perm heap

/-- `sort_by` on the distances: stable, where all of them can be compared. -/
def sortByDistance (found : List (ℕ × UInt32)) : List (ℕ × UInt32) :=
  found.insertionSort fun a b => cmpDistance a.2 b.2 ≠ .gt

namespace Hnsw

def loopFuel : ℕ := 2 ^ 32 + 1

variable {ε : Type} (dist : List UInt32 → List UInt32 → UInt32) (storage : VectorStorage ε)

/-- `distance_fn(query, storage.vector(id))`. -/
def distanceTo (query : List UInt32) (id : ℕ) : Except ε UInt32 := do
  let v ← storage.vector id
  pure (dist query v)

/-! ## The upper layers -/

/-- The loop over the neighbors: the walk moves on to each that is closer. -/
def scanNeighbors (query : List UInt32) :
    List ℕ → ℕ × UInt32 × Bool → Except ε (ℕ × UInt32 × Bool)
  | [], walk => pure walk
  | neighbor :: neighbors, (current, currentDist, improved) => do
      if ← storage.isDeleted neighbor then
        scanNeighbors query neighbors (current, currentDist, improved)
      else
        let d ← distanceTo dist storage query neighbor
        if Binary32.lt d currentDist then scanNeighbors query neighbors (neighbor, d, true)
        else scanNeighbors query neighbors (current, currentDist, improved)

/-- The greedy walk on a layer. -/
def walkLayer (query : List UInt32) (layer : ℕ) : ℕ → ℕ × UInt32 → Except ε (ℕ × UInt32)
  | 0, _ => .error storage.stuck
  | fuel + 1, (current, currentDist) => do
      let neighbors ← storage.neighbors current layer
      let (current, currentDist, improved) ←
        scanNeighbors dist storage query neighbors (current, currentDist, false)
      if improved then walkLayer query layer fuel (current, currentDist)
      else pure (current, currentDist)

def searchUpperLayers (entryPoint : ℕ) (query : List UInt32) (currentMaxLayer targetLayer : ℕ) :
    Except ε ℕ := do
  let entryDist ← distanceTo dist storage query entryPoint
  let layers := (List.range' (targetLayer + 1) (currentMaxLayer - targetLayer)).reverse
  let (current, _) ← layers.foldlM (fun walk layer =>
    walkLayer dist storage query layer loopFuel walk) (entryPoint, entryDist)
  pure current

/-- Descend through the layers above the target, if there are any. -/
def descendTo (entryPoint : ℕ) (query : List UInt32) (currentMaxLayer targetLayer : ℕ) :
    Except ε ℕ :=
  if targetLayer < currentMaxLayer then
    searchUpperLayers dist storage entryPoint query currentMaxLayer targetLayer
  else pure entryPoint

/-! ## Beam search -/

/-- The state of the beam search on a layer. -/
structure Beam where
  visited : List ℕ
  candidates : List Candidate
  results : List Candidate

/-- The distance of the worst result. -/
def Beam.worstDist (beam : Beam) : UInt32 :=
  ((popMax Candidate.farCmp beam.results).map fun r => r.1.distance).getD Binary32.maxFinite

/-- Drop the furthest result if there are more than `ef`. -/
def evict (ef : ℕ) (results : List Candidate) : List Candidate :=
  if ef < results.length then
    ((popMax Candidate.farCmp results).map Prod.snd).getD []
  else results

/-- Put the entry points into the beam. -/
def enterBeam (query : List UInt32) (isAllowed : ℕ → Bool) : List ℕ → Beam → Except ε Beam
  | [], beam => pure beam
  | ep :: eps, beam => do
      if ep ∈ beam.visited then enterBeam query isAllowed eps beam
      else
        let d ← distanceTo dist storage query ep
        let deleted ← storage.isDeleted ep
        enterBeam query isAllowed eps
          { visited := ep :: beam.visited
            candidates := ⟨d, ep⟩ :: beam.candidates
            results :=
              if !deleted && isAllowed ep then ⟨d, ep⟩ :: beam.results else beam.results }

/-- The loop over the neighbors of the closest candidate. -/
def expandBeam (query : List UInt32) (ef : ℕ) (isAllowed : ℕ → Bool) :
    List ℕ → Beam → Except ε Beam
  | [], beam => pure beam
  | neighbor :: neighbors, beam => do
      if neighbor ∈ beam.visited then expandBeam query ef isAllowed neighbors beam
      else
        let d ← distanceTo dist storage query neighbor
        let beam := { beam with visited := neighbor :: beam.visited }
        if Binary32.lt d beam.worstDist || beam.results.length < ef then
          let deleted ← storage.isDeleted neighbor
          expandBeam query ef isAllowed neighbors
            { beam with
              candidates := ⟨d, neighbor⟩ :: beam.candidates
              results :=
                if !deleted && isAllowed neighbor then evict ef (⟨d, neighbor⟩ :: beam.results)
                else beam.results }
        else expandBeam query ef isAllowed neighbors beam

/-- The main loop: expand the closest candidate until the beam cannot get better. -/
def runBeam (query : List UInt32) (ef layer : ℕ) (isAllowed : ℕ → Bool) : ℕ → Beam → Except ε Beam
  | 0, _ => .error storage.stuck
  | fuel + 1, beam =>
      match popMax Candidate.closeCmp beam.candidates with
      | none => pure beam
      | some (closest, candidates) => do
          let beam := { beam with candidates }
          if Binary32.lt beam.worstDist closest.distance && ef ≤ beam.results.length then pure beam
          else
            let neighbors ← storage.neighbors closest.nodeId layer
            let beam ← expandBeam dist storage query ef isAllowed neighbors beam
            runBeam query ef layer isAllowed fuel beam

variable (order : HeapOrder)

def searchLayer (entryPoints : List ℕ) (query : List UInt32) (ef layer : ℕ)
    (isAllowed : ℕ → Bool) : Except ε (List (ℕ × UInt32)) := do
  let beam ← enterBeam dist storage query isAllowed entryPoints ⟨[], [], []⟩
  let beam ← runBeam dist storage query ef layer isAllowed loopFuel beam
  pure (sortByDistance ((order.intoIter beam.results).map fun r => (r.nodeId, r.distance)))

/-! ## Selecting neighbors -/

/-- The candidates that are closer to the target than to each that was selected before. -/
def selectDiverse (m : ℕ) : List (ℕ × UInt32) → List ℕ → Except ε (List ℕ)
  | [], selected => pure selected
  | (candId, candDist) :: sorted, selected => do
      if m ≤ selected.length then pure selected
      else
        let candVec ← storage.vector candId
        let dominated ← selected.anyM fun selId => do
          let selVec ← storage.vector selId
          pure (Binary32.lt (dist candVec selVec) candDist)
        if dominated then selectDiverse m sorted selected
        else selectDiverse m sorted (selected ++ [candId])

/-- Fill the remaining slots with the closest. -/
def fillClosest (m : ℕ) : List (ℕ × UInt32) → List ℕ → List ℕ
  | [], selected => selected
  | (candId, _) :: sorted, selected =>
      if m ≤ selected.length then selected
      else if candId ∈ selected then fillClosest m sorted selected
      else fillClosest m sorted (selected ++ [candId])

def selectNeighbors (candidates : List (ℕ × UInt32)) (m : ℕ) : Except ε (List ℕ) := do
  let sorted := sortByDistance candidates
  let selected ← selectDiverse dist storage m sorted []
  pure (fillClosest m sorted selected)

/-- The neighbors that are not deleted, with their distances. -/
def scoreLive (nodeVec : List UInt32) : List ℕ → Except ε (List (ℕ × UInt32))
  | [] => pure []
  | n :: neighbors => do
      if ← storage.isDeleted n then scoreLive nodeVec neighbors
      else
        let d ← distanceTo dist storage nodeVec n
        let scored ← scoreLive nodeVec neighbors
        pure ((n, d) :: scored)

def pruneNeighbors (nodeId : ℕ) (currentNeighbors : List ℕ) (maxNeighbors : ℕ) :
    Except ε (List ℕ) := do
  let nodeVec ← storage.vector nodeId
  let scored ← scoreLive dist storage nodeVec currentNeighbors
  selectNeighbors dist storage scored maxNeighbors

/-! ## Search and insertion -/

/-- The `k` nearest of what the beam finds. -/
def search (query : List UInt32) (k efSearch entryPoint maxLayer : ℕ) (isAllowed : ℕ → Bool) :
    Except ε (List (ℕ × UInt32)) := do
  let ep ← descendTo dist storage entryPoint query maxLayer 0
  let results ← searchLayer dist storage order [ep] query (max efSearch k) 0 isAllowed
  pure (results.take k)

/-- A list that is to be written: the node, the layer and its neighbors. -/
abbrev Connection : Type := ℕ × ℕ × List ℕ

structure InsertResult where
  connections : List Connection
  newEntryPoint : Option ℕ
  newMaxLayer : Option ℕ

/-- The list of a selected neighbor, with the new node. -/
def linkBack (nodeId layer maxNeighbors neighbor : ℕ) : Except ε Connection := do
  let neighborList ← storage.neighbors neighbor layer
  let neighborList := if nodeId ∈ neighborList then neighborList else neighborList ++ [nodeId]
  if maxNeighbors < neighborList.length then
    let pruned ← pruneNeighbors dist storage neighbor neighborList maxNeighbors
    pure (neighbor, layer, pruned)
  else pure (neighbor, layer, neighborList)

/-- One turn of the loop over the layers: the lists so far, and where to start. -/
def insertLayer (nodeId : ℕ) (query : List UInt32) (m efConstruction : ℕ)
    (state : List Connection × ℕ) (layer : ℕ) : Except ε (List Connection × ℕ) := do
  let maxNeighbors := if layer = 0 then 2 * m else m
  let candidates ← searchLayer dist storage order [state.2] query efConstruction layer fun _ => true
  let selected ← selectNeighbors dist storage candidates (min maxNeighbors m)
  let links ← selected.mapM (linkBack dist storage nodeId layer maxNeighbors)
  pure (state.1 ++ (nodeId, layer, selected) :: links,
    (candidates.head?.map Prod.fst).getD state.2)

/-- `insert`: the lists that the new node brings about. -/
def insert (nodeId level : ℕ) (entryPoint : Option ℕ) (currentMaxLayer m efConstruction : ℕ) :
    Except ε InsertResult := do
  match entryPoint with
  | none =>
      pure ⟨(List.range (level + 1)).map fun l => (nodeId, l, []), some nodeId, some level⟩
  | some ep => do
      let query ← storage.vector nodeId
      let currentEp ← descendTo dist storage ep query currentMaxLayer level
      let layers := (List.range (min level currentMaxLayer + 1)).reverse
      let (connections, _) ← layers.foldlM
        (insertLayer dist storage order nodeId query m efConstruction) ([], currentEp)
      if currentMaxLayer < level then pure ⟨connections, some nodeId, some level⟩
      else pure ⟨connections, none, none⟩

end Hnsw

end BoogyDb
