import BoogyDb.HnswLists
import BoogyDb.InsertedLists

/-!
# The lists of an insertion into a collection

A deletion leaves the lists that name the freed node.  When an insertion uses the node again, a
list may still lead to it: then the new node finds itself, and its list names itself and is
written twice.

As long as no freed node that is used again is led to, every list that is stored names each node
once and not its own (`LayeredGraph.Simple`), what an insertion writes is well formed, and the
lists of the new node are the neighbors that were selected for it (`VectorRun.inserts_well`).
-/

namespace BoogyDb

open Bytes Memory Wp Except VecFile

variable {distanceFn : DistanceMetric → List UInt32 → List UInt32 → UInt32} {order : HeapOrder}

/-! ## Lists without repetition -/

namespace VectorCollection

variable {f f' f₁ f₂ : VecFile} {c c' : VectorCollection} {rowid : UInt64} {vector : List UInt32}
  {n v layer : ℕ} {r : Hnsw.InsertResult}

theorem simple_of_same (h : SameRecords f f') (hsimple : f.graph.Simple) : f'.graph.Simple := by
  intro l n hon
  rw [h.on] at hon
  change (f'.listOf n l).Nodup ∧ n ∉ f'.listOf n l
  rw [h.list hon]
  exact hsimple l n hon

/-- The lists of a new node are empty. -/
theorem Adds.simple (h : Adds f f' v vector layer) (hsimple : f.graph.Simple) : f'.graph.Simple := by
  intro l n hon
  change (f'.listOf n l).Nodup ∧ n ∉ f'.listOf n l
  by_cases hne : n = v
  · subst hne
    rw [h.lists l (h.level ▸ hon.2)]
    exact ⟨List.nodup_nil, List.not_mem_nil⟩
  · have honF := (Adds.on h hne).mp hon
    rw [(h.same n honF.1 hne).record.list l honF.2]
    exact hsimple l n honF

/-- The new node is not led to, unless it is a freed node that still was. -/
theorem Adds.unled (h : Adds f f' v vector layer) (hf : GraphInv f)
    (hreuse : f.header.freeListHead = some v → ¬ f.Led v) : ¬ f'.Led v := by
  intro hled
  have hledOld := Adds.led h hled
  rcases h.was with ⟨hhead, -⟩ | ⟨-, hnew⟩
  · exact hreuse hhead hledOld
  · exact absurd (hledOld.lt hf) (by rw [hnew]; exact lt_irrefl _)

/-- The neighbors that an insertion selects on the file. -/
def graphSelected (distanceFn : DistanceMetric → List UInt32 → List UInt32 → UInt32)
    (order : HeapOrder) (f : VecFile) (nodeId layer : ℕ) : Except Fault (List (ℕ × List ℕ)) :=
  Hnsw.selectedNeighbors (distanceFn f.header.metric) (Access.code.storage f) order nodeId layer
    f.header.entryPoint f.header.maxLayer f.header.m f.header.efConstruction

/-- **What an insertion writes is well formed**, when the freed node that it uses again is not led
to. -/
theorem Built.lists (h : Built Access.code distanceFn order c c' vector layer v f₁ f₂ r)
    (hc : GraphInv c.vecfile) (hsimple : c.vecfile.graph.Simple)
    (hreuse : c.vecfile.header.freeListHead = some v → ¬ c.vecfile.Led v) :
    Hnsw.WellFormed f₁.header.m r.connections ∧ ∃ selected,
      graphSelected distanceFn order f₁ v layer = .ok selected ∧
        Hnsw.Announces v selected r.connections := by
  have hunled := Adds.unled h.adds hc hreuse
  exact Hnsw.insert_lists (readsAs Access.code_sound h.adds.layout h.layered)
    (Adds.simple h.adds hsimple) (Adds.on_self h.adds) h.entry
    (fun ep hep hleads => hunled ⟨ep, hep, hleads⟩) h.result

/-- The lists that are stored stay without repetition. -/
theorem Built.simple (h : Built Access.code distanceFn order c c' vector layer v f₁ f₂ r)
    (hsimple : c.vecfile.graph.Simple) (hwell : Hnsw.WellFormed f₁.header.m r.connections) :
    c'.vecfile.graph.Simple := by
  refine simple_of_same h.sameRecords fun l n hon => ?_
  have hon₁ : f₁.graph.On l n := h.relinks.on.mp hon
  change (f₂.listOf n l).Nodup ∧ n ∉ f₂.listOf n l
  rcases applyConnections_lists Access.code_sound h.adds.layout h.layered h.inserts.connects
    h.applied hon₁ with ⟨hsame, -⟩ | hmem
  · rw [hsame]
    have hold : (f₁.listOf n l).Nodup ∧ n ∉ f₁.listOf n l := Adds.simple h.adds hsimple l n hon₁
    exact hold
  · have hnodup := hwell.nodup (n, l, f₂.listOf n l) hmem
    have hown := hwell.own (n, l, f₂.listOf n l) hmem
    exact ⟨hnodup, hown⟩

/-- The lists of the new node are what was selected, or empty on the layers where nothing was. -/
theorem Built.newLists (h : Built Access.code distanceFn order c c' vector layer v f₁ f₂ r)
    {selected : List (ℕ × List ℕ)} (hselected : Hnsw.Announces v selected r.connections)
    {l : ℕ} (hl : l ≤ layer) : f₂.readNeighbors v l = .ok ((selected.lookup l).getD []) := by
  have hon₁ : f₁.graph.On l v := (Adds.on_self h.adds).mono hl
  have hon := h.relinks.on.mpr hon₁
  rw [h.layout.readNeighbors hon.1 hon.2]
  congr 1
  rcases applyConnections_lists Access.code_sound h.adds.layout h.layered h.inserts.connects
    h.applied hon₁ with ⟨hsame, hno⟩ | hmem
  · rw [hsame, h.adds.lists l hl]
    cases hlookup : selected.lookup l with
    | none => rfl
    | some list => exact absurd ⟨rfl, rfl⟩ (hno _ (hselected.all l list hlookup))
  · exact (hselected.lists l _ hmem).symm

end VectorCollection

/-! ## Runs -/

section

variable (distanceFn : DistanceMetric → List UInt32 → List UInt32 → UInt32) (order : HeapOrder)

/-- If the insertion goes through, what it writes is well formed, and then the lists of the new
node are the selected neighbors. -/
def InsertsWell (c : VectorCollection) (rowid : UInt64) (vector : List UInt32) (layer : ℕ) : Prop :=
  ∀ v c', VectorCollection.insert Access.code distanceFn order rowid vector layer c = .ok v c' →
    ∃ f₁ f₂ r selected, VectorCollection.addNode c.vecfile vector layer = .ok (v, f₁) ∧
      VectorCollection.graphInsert Access.code distanceFn order f₁ v layer = .ok r ∧
      Hnsw.WellFormed f₁.header.m r.connections ∧
      VectorCollection.graphSelected distanceFn order f₁ v layer = .ok selected ∧
      VectorCollection.applyConnections Access.code f₁ r.connections = .ok f₂ ∧
      ∀ l ≤ layer, f₂.readNeighbors v l = .ok ((selected.lookup l).getD [])

end

/-- A freed node that is used again is not led to.  An update uses the node again that it frees. -/
def VectorOp.ReusesUnled (c : VectorCollection) : VectorOp → Prop
  | .insert rowid vector _ => vector.length = c.vecfile.header.dimensions → rowid ∉ c.rowidToNode →
      ∀ v, c.vecfile.header.freeListHead = some v → ¬ c.vecfile.Led v
  | .delete _ => True
  | .update rowid vector _ => vector.length = c.vecfile.header.dimensions →
      ∀ v ep, c.rowidToNode.lookup rowid = some v → c.vecfile.entryWithout v = some ep →
        ¬ c.vecfile.graph.Leads ep v

variable {c₀ c c' : VectorCollection} {op : VectorOp}

/-- **A call keeps the lists without repetition.** -/
theorem VectorOp.run_simple (hc : CollectionInv c) (hsimple : c.vecfile.graph.Simple)
    (hunled : op.ReusesUnled c) (heffect : op.Effect distanceFn order c c') :
    c'.vecfile.graph.Simple := by
  cases heffect with
  | refused hrun => exact hsimple
  | inserted hrun hins hbuilt =>
      obtain ⟨hlen, hnew⟩ := VectorCollection.insert_accepts hrun
      obtain ⟨hwell, -⟩ := hbuilt.lists hc.graph hsimple (hunled hlen hnew _)
      exact hbuilt.simple hsimple hwell
  | deleted hrun hdel => exact VectorCollection.simple_of_same hdel.sameRecords hsimple
  | halfUpdated hlen hdelete hdel hrun =>
      exact VectorCollection.simple_of_same hdel.sameRecords hsimple
  | updated hlen hdelete hdel hins hbuilt hrun =>
      have hsimple₁ := VectorCollection.simple_of_same hdel.sameRecords hsimple
      obtain ⟨hwell, -⟩ := hbuilt.lists hdel.inv.graph hsimple₁ fun _ hled => by
        obtain ⟨ep, hep, hleads⟩ := hdel.leads hled
        exact hunled hlen _ ep hdel.was hep hleads
      exact hbuilt.simple hsimple₁ hwell

/-- The lists that are stored have no repetition in a run whose insertions do not use a node again
that is led to. -/
theorem VectorRun.simple
    (h : VectorRun distanceFn order (fun c op => op.Fits c ∧ op.ReusesUnled c) c₀ c)
    (hc₀ : CollectionInv c₀) (hsimple₀ : c₀.vecfile.graph.Simple) : c.vecfile.graph.Simple := by
  induction h with
  | start => exact hsimple₀
  | step hrun hlayer hfits hreturns ih =>
      have hc := (hrun.mono fun _ _ => And.left).inv hc₀
      exact VectorOp.run_simple hc ih hfits.2 (VectorOp.run_effect hc hlayer hfits.1 hreturns)

/-- **An insertion writes well formed lists**, in a run where no freed node is used again while it
is led to. -/
theorem VectorRun.inserts_well {options : VectorCollectionOptions} {cipher : Option Aes256Gcm}
    {nonces : ℕ → Nonce} (hcreate : VectorCollection.create options cipher nonces = .ok c₀)
    (hrun : VectorRun distanceFn order (fun c op => op.Fits c ∧ op.ReusesUnled c) c₀ c)
    (rowid : UInt64) (vector : List UInt32) {layer : ℕ} (hlayer : layer < 2 ^ 32)
    (hfits : (VectorOp.insert rowid vector layer).Fits c)
    (hunled : (VectorOp.insert rowid vector layer).ReusesUnled c) :
    InsertsWell distanceFn order c rowid vector layer := by
  have hc₀ := VectorCollection.create_inv hcreate
  have hc := (hrun.mono fun _ _ => And.left).inv hc₀
  have hsimple₀ : c₀.vecfile.graph.Simple := by
    intro l n hon
    have hlt : n < c₀.vecfile.header.nodeCount := hon.1
    rw [(VectorCollection.create_empty hcreate).2] at hlt
    exact absurd hlt (Nat.not_lt_zero n)
  have hsimple := hrun.simple hc₀ hsimple₀
  intro v c' hinsert
  obtain ⟨hlen, hnew⟩ := VectorCollection.insert_accepts hinsert
  have hop : (VectorOp.insert rowid vector layer).layer < 2 ^ 32 := hlayer
  cases VectorOp.run_effect hc hop hfits (Or.inl ⟨_, VectorOp.run_discard_ok hinsert⟩) with
  | refused herr => exact nomatch (VectorOp.run_discard_ok hinsert).symm.trans herr
  | inserted hinsert' hins hbuilt =>
      rw [hinsert] at hinsert'
      cases hinsert'
      obtain ⟨hwell, selected, hselected, hannounces⟩ :=
        hbuilt.lists hc.graph hsimple (hunled hlen hnew v)
      exact ⟨_, _, _, selected, hbuilt.added, hbuilt.result, hwell, hselected, hbuilt.applied,
        fun l hl => hbuilt.newLists hannounces hl⟩

/-- A node that was freed is used again; it was the only one. -/
theorem VectorRun.inserts_well_again : ∃ c,
    (newVectors 16).after noDistance .inOrder [.insert 1 [0] 0, .delete 1] = some c ∧
      c.vecfile.header.freeListHead = some 0 ∧ InsertsWell noDistance .inOrder c 2 [0] 0 := by
  have hcreate : VectorCollection.create ⟨1, .euclidean, 16, 10⟩ none VectorWal.zeroNonces =
    .ok (newVectors 16) := rfl
  have heval : ((newVectors 16).after noDistance .inOrder [.insert 1 [0] 0, .delete 1]).any (fun c =>
        c.vecfile.header.freeListHead = some 0 ∧ c.vecfile.header.entryPoint = none ∧
          c.vecfile.header.nodeCount = 1 ∧ c.vecfile.HasRoom 0) = true ∧
      ((newVectors 16).after noDistance .inOrder [.insert 1 [0] 0]).any (fun c =>
        c.rowidToNode.lookup 1 = some 0 ∧ c.vecfile.entryWithout 0 = none) = true := by
    decide +kernel
  obtain ⟨heval₂, heval₁⟩ := heval
  obtain ⟨c₂, hafter, heval₂⟩ := (Option.any_eq_true _ _).mp heval₂
  obtain ⟨c₁, hrun₁, hrest⟩ := VectorCollection.after_cons.mp hafter
  obtain ⟨c₂', hrun₂, hnil⟩ := VectorCollection.after_cons.mp hrest
  obtain rfl : c₂' = c₂ := Option.some.inj hnil
  rw [VectorCollection.after_cons.mpr ⟨c₁, hrun₁, rfl⟩, Option.any_some, decide_eq_true_eq] at heval₁
  rw [decide_eq_true_eq] at heval₂
  obtain ⟨hlookup, hwithout⟩ := heval₁
  obtain ⟨hhead, hentry, hcount, hroom⟩ := heval₂
  have hfits₁ : VectorOp.Fits (newVectors 16) (.insert 1 [0] 0) := fun _ _ => .of_new rfl (by decide)
  have hunled₁ : VectorOp.ReusesUnled (newVectors 16) (.insert 1 [0] 0) := nofun
  have hfits₂ : VectorOp.Fits c₁ (.delete 1) := by
    intro v hv n _ hn
    rw [hlookup] at hv
    cases hv
    exact nomatch hwithout.symm.trans hn
  have hfits₃ : VectorOp.Fits c₂' (.insert 2 [0] 0) := by
    refine fun _ _ => ⟨fun v hv => ⟨fun l n hon hne _ => ?_, fun h => nomatch hentry.symm.trans h⟩, hroom⟩
    have hlt : n < c₂'.vecfile.header.nodeCount := hon.1
    have hzero : 0 = v := Option.some.inj (hhead.symm.trans hv)
    omega
  have hunled₃ : VectorOp.ReusesUnled c₂' (.insert 2 [0] 0) := by
    rintro _ _ v _ ⟨ep, hep, -⟩
    exact nomatch hentry.symm.trans hep
  have hfirst : VectorRun noDistance .inOrder (fun c op => op.Fits c ∧ op.ReusesUnled c)
      (newVectors 16) c₁ := .step .start (by decide) ⟨hfits₁, hunled₁⟩ (Or.inl ⟨_, hrun₁⟩)
  have hlayer : (VectorOp.delete 1).layer < 2 ^ 32 := Nat.two_pow_pos 32
  exact ⟨c₂', hafter, hhead, VectorRun.inserts_well hcreate
    (hfirst.step hlayer ⟨hfits₂, trivial⟩ (Or.inl ⟨_, hrun₂⟩)) 2 [0] (by decide) hfits₃ hunled₃⟩

/-- An insertion links a node to itself. -/
def linksItself (c : VectorCollection) (rowid : UInt64) (vector : List UInt32) (layer : ℕ) : Bool :=
  match VectorCollection.insert Access.code noDistance .inOrder rowid vector layer c,
    VectorCollection.addNode c.vecfile vector layer with
  | .ok _ _, .ok (v, f₁) =>
      match VectorCollection.graphInsert Access.code noDistance .inOrder f₁ v layer with
      | .ok r => r.connections.any fun c => decide (c.1 ∈ c.2.2)
      | .error _ => false
  | _, _ => false

/-- The second node is freed and used again, and the list of the first one leads to it: the new
node is its own neighbor. -/
theorem not_inserts_well_always : ¬ ∀ (options : VectorCollectionOptions)
    (cipher : Option Aes256Gcm) (nonces : ℕ → Nonce) (c₀ c : VectorCollection) (rowid : UInt64)
    (vector : List UInt32) (layer : ℕ), VectorCollection.create options cipher nonces = .ok c₀ →
      VectorRun noDistance .inOrder (fun _ _ => True) c₀ c → layer < 2 ^ 32 →
        InsertsWell noDistance .inOrder c rowid vector layer := by
  intro h
  have hcreate : VectorCollection.create ⟨1, .euclidean, 16, 10⟩ none VectorWal.zeroNonces =
    .ok (newVectors 16) := rfl
  have heval : ((newVectors 16).after noDistance .inOrder
      [.insert 1 [0] 0, .insert 2 [0] 0, .delete 2]).any (fun c => linksItself c 3 [0] 0) = true := by
    decide +kernel
  obtain ⟨c, hafter, heval⟩ := (Option.any_eq_true _ _).mp heval
  have hrun := VectorRun.of_after VectorRun.start (by decide) hafter
  rw [linksItself] at heval
  cases hinsert : VectorCollection.insert Access.code noDistance .inOrder 3 [0] 0 c with
  | error e c' =>
      rw [hinsert] at heval
      cases heval
  | ok v c' =>
      obtain ⟨f₁, f₂, r, selected, hadd, hgraph, hwell, -⟩ :=
        h _ _ _ _ c 3 [0] 0 hcreate hrun (by decide) v c' hinsert
      rw [hinsert, hadd] at heval
      dsimp only at heval
      rw [hgraph] at heval
      obtain ⟨connection, hmem, hown⟩ := List.any_eq_true.mp heval
      exact hwell.own connection hmem (of_decide_eq_true hown)

end BoogyDb
