import BoogyDb.HnswLinks
import BoogyDb.VectorMaps

/-!
# The lists after an insertion

After the lists of an insertion are written, a list of a node is one that the insertion has
brought about, or it is what it was (`applyConnections_lists`).  So the new entry point leads to
the new node, and otherwise only where the old one led (`Built.leads`); a deletion leads nowhere
else either (`Deleted.leads`).
-/

namespace BoogyDb

open Bytes Memory Wp Except VecFile

namespace VectorCollection

variable {ε : Type} {a : Access ε} {f f' f₁ f₂ : VecFile} {c c' : VectorCollection}
  {rowid : UInt64} {vector : List UInt32} {n v l layer : ℕ} {r : Hnsw.InsertResult}
  {distanceFn : DistanceMetric → List UInt32 → List UInt32 → UInt32} {order : HeapOrder}

/-! ## Writing the lists -/

/-- **A list is the last one that was written for its node and layer**, or what it was. -/
theorem applyConnections_lists (ha : a.Sound) (hf : Layout f) (hlayered : f.graph.Layered)
    {connections : List Hnsw.Connection}
    (hall : ∀ c ∈ connections, Hnsw.Connects f.graph f.header.m c)
    (hrun : applyConnections a f connections = .ok f') (hon : f.graph.On l n) :
    f'.listOf n l = f.listOf n l ∧ (∀ c ∈ connections, ¬ (c.1 = n ∧ c.2.1 = l)) ∨
      (n, l, f'.listOf n l) ∈ connections := by
  induction connections generalizing f with
  | nil =>
      cases hrun
      exact Or.inl ⟨rfl, nofun⟩
  | cons connection connections ih =>
      rw [List.forall_mem_cons] at hall
      obtain ⟨hconnects, hall⟩ := hall
      obtain ⟨n', l', list⟩ := connection
      obtain ⟨hon', hlist, hlen⟩ := hconnects
      dsimp only at hon' hlist hlen
      obtain ⟨f₁, hwrite, hw⟩ := writeNeighbors_ok hf hon'.1 hon'.2 hlen fun x hx =>
        lt_noneU32 hf.shape (hlist x hx).1
      have hrelinks := Relinks.of_writes hw
      have hwriteA := ha.write f f₁ l' n' list hf hon' hwrite
      obtain ⟨g, hwriteB, hlayout₁, hlayered₁, -⟩ :=
        writeConnection_ok ha hf hlayered (c := (n', l', list)) ⟨hon', hlist, hlen⟩
      obtain rfl : g = f₁ := by
        rw [hwriteA] at hwriteB
        exact (Except.ok.inj hwriteB).symm
      have hall₁ : ∀ c ∈ connections, Hnsw.Connects g.graph g.header.m c := by
        intro c hmem
        obtain ⟨hon, hlist, hlen⟩ := hall c hmem
        refine ⟨hrelinks.on.mpr hon, fun x hx => hrelinks.on.mpr (hlist x hx), ?_⟩
        rw [hrelinks.header]
        exact hlen
      have hrest : applyConnections a g connections = .ok f' := by
        unfold applyConnections at hrun ⊢
        rw [List.foldlM_cons] at hrun
        dsimp only at hrun
        rwa [hwriteA, Except.ok_bind] at hrun
      rcases ih hlayout₁ hlayered₁ hall₁ hrest (hrelinks.on.mpr hon) with ⟨hsame, hno⟩ | hmem
      · by_cases hkey : n' = n ∧ l' = l
        · obtain ⟨rfl, rfl⟩ := hkey
          refine Or.inr ?_
          rw [hsame, hw.listSelf]
          exact List.mem_cons_self
        · refine Or.inl ⟨?_, List.forall_mem_cons.mpr ⟨hkey, hno⟩⟩
          rw [hsame]
          exact hw.listOther n hon.1 l hon.2 fun heq heq' => hkey ⟨heq.symm, heq'.symm⟩
      · exact Or.inr (List.mem_cons_of_mem _ hmem)

end VectorCollection

/-! ## What the entry point leads to -/

namespace VecFile

variable {f f' : VecFile} {n : ℕ}

/-- The lists lead from the entry point to the node. -/
def Led (f : VecFile) (n : ℕ) : Prop := ∃ ep, f.header.entryPoint = some ep ∧ f.graph.Leads ep n

theorem Led.step {b : ℕ} (h : f.Led n) (hedge : f.graph.Edge n b) : f.Led b := by
  obtain ⟨ep, hep, hleads⟩ := h
  exact ⟨ep, hep, hleads.tail hedge⟩

/-- A file whose lists lead no further from where the other one's lead. -/
theorem Led.of_edges {P : ℕ → Prop} (h : f'.Led n)
    (hstart : ∀ ep, f'.header.entryPoint = some ep → P ep)
    (hedge : ∀ a b, P a → f'.graph.Edge a b → P b) : P n := by
  obtain ⟨ep, hep, hleads⟩ := h
  exact hleads.of_edges (hstart ep hep) hedge

theorem Led.lt (h : f.Led n) (hf : GraphInv f) : n < f.header.nodeCount := by
  obtain ⟨ep, hep, hleads⟩ := h
  exact hleads.lt hf.layered (hf.entry ep hep).1

/-- The same nodes have the same lists. -/
theorem SameRecords.edge {a b : ℕ} (h : SameRecords f f') (hedge : f'.graph.Edge a b) :
    f.graph.Edge a b := by
  obtain ⟨l, hon, hb⟩ := hedge
  rw [h.on] at hon
  change b ∈ f'.listOf a l at hb
  rw [h.list hon] at hb
  exact ⟨l, hon, hb⟩

end VecFile

namespace VectorCollection

variable {f f₁ f₂ : VecFile} {c c' : VectorCollection} {rowid : UInt64} {vector : List UInt32}
  {n v layer : ℕ} {r : Hnsw.InsertResult}
  {distanceFn : DistanceMetric → List UInt32 → List UInt32 → UInt32} {order : HeapOrder}

/-- The lists of the new node are empty, and the others are what they were. -/
theorem Adds.list (h : Adds f f₁ v vector layer) {l a b : ℕ} (hon : f₁.graph.On l a)
    (hb : b ∈ f₁.listOf a l) : a ≠ v ∧ f.graph.On l a ∧ b ∈ f.listOf a l := by
  by_cases hne : a = v
  · subst hne
    rw [h.lists l (h.level ▸ hon.2)] at hb
    exact absurd hb List.not_mem_nil
  · have honF := (Adds.on h hne).mp hon
    rw [(h.same a honF.1 hne).record.list l honF.2] at hb
    exact ⟨hne, honF, hb⟩

theorem Adds.led (h : Adds f f₁ v vector layer) (hled : f₁.Led n) : f.Led n := by
  refine hled.of_edges (P := f.Led) (fun ep hep => ⟨ep, ?_, .refl⟩) fun a b ha ⟨l, hon, hb⟩ => ?_
  · rw [← hep, h.header]
  · obtain ⟨-, honF, hbF⟩ := Adds.list h hon hb
    exact ha.step ⟨l, honF, hbF⟩

/-- An edge of the graph after an insertion goes to the new node, is an old one of another node, or
goes from the new node to one that the entry point led to. -/
theorem Built.edge (h : Built Access.code distanceFn order c c' vector layer v f₁ f₂ r) {a b : ℕ}
    (hedge : f₂.graph.Edge a b) :
    b = v ∨ a ≠ v ∧ c.vecfile.graph.Edge a b ∨ f₁.Led b := by
  have hreads := readsAs Access.code_sound h.adds.layout h.layered
  -- the insertion only finds what the entry point leads to
  have hstays : Hnsw.StaysIn (Access.code.storage f₁) fun l n =>
      f₁.graph.On l n ∧ f₁.Led n := by
    refine ⟨fun l n list ⟨hon, ep, hep, hleads⟩ hread x hx => ?_,
      fun l n ⟨hon, hled⟩ => ⟨hon.mono (Nat.le_succ l), hled⟩⟩
    obtain ⟨honX, hleadsX⟩ := (hreads.stays ep).neighbors l n list ⟨hon, hleads⟩ hread x hx
    exact ⟨honX, ep, hep, hleadsX⟩
  have hnames := (Hnsw.insert_names (readsGood f₁) hstays fun ep hep =>
    ⟨h.entry ep hep, ep, hep, .refl⟩).ok h.result
  obtain ⟨l, hon, hb⟩ := hedge
  have hon₁ : f₁.graph.On l a := h.relinks.on.mp hon
  have hold : b ∈ f₁.listOf a l → a ≠ v ∧ c.vecfile.graph.Edge a b := by
    intro hb
    obtain ⟨hne, honF, hbF⟩ := Adds.list h.adds hon₁ hb
    exact ⟨hne, l, honF, hbF⟩
  rcases applyConnections_lists Access.code_sound h.adds.layout h.layered h.inserts.connects
    h.applied hon₁ with ⟨hsame, -⟩ | hmem
  · change b ∈ f₂.listOf a l at hb
    rw [hsame] at hb
    exact Or.inr (Or.inl (hold hb))
  · rcases hnames _ hmem with ⟨-, hin⟩ | ⟨old, hread, hin⟩
    · exact Or.inr (Or.inr (hin b hb).2)
    · rw [hreads.neighbors hon₁] at hread
      cases hread
      rcases hin b hb with hb | hb
      · exact Or.inr (Or.inl (hold hb))
      · exact Or.inl hb

/-- The header is all that is written after the lists. -/
theorem Built.sameRecords (h : Built Access.code distanceFn order c c' vector layer v f₁ f₂ r) :
    SameRecords f₂ c'.vecfile :=
  ⟨h.count, fun n hn => (h.same n (h.layout.lt_cap hn)).record⟩

/-- **After an insertion the entry point leads to the new node, and else where it led before.** -/
theorem Built.led (h : Built Access.code distanceFn order c c' vector layer v f₁ f₂ r)
    (hled : c'.vecfile.Led n) : n = v ∨ c.vecfile.Led n := by
  refine hled.of_edges (P := fun n => n = v ∨ c.vecfile.Led n) (fun ep hep => ?_)
    fun a b ha hedge => ?_
  · rw [h.newEntry] at hep
    rcases h.inserts.entry with ⟨hnone, -, hsome, -⟩ | ⟨hnew, -⟩
    · obtain ⟨ep₁, hep₁⟩ := Option.isSome_iff_exists.mp hsome
      rw [hnone, hep₁, Option.getD_none, Option.getD_some] at hep
      refine Or.inr (Adds.led h.adds ⟨ep₁, hep₁, ?_⟩)
      rw [Option.some.inj hep]
      exact .refl
    · rw [hnew, Option.getD_some] at hep
      exact Or.inl (Option.some.inj hep).symm
  · rcases h.edge (h.sameRecords.edge hedge) with hb | ⟨hne, hedge⟩ | hb
    · exact Or.inl hb
    · exact Or.inr ((ha.resolve_left hne).step hedge)
    · exact Or.inr (Adds.led h.adds hb)

/-- A deletion does not touch the lists. -/
theorem Deleted.leads (h : Deleted c c' rowid v) (hled : c'.vecfile.Led n) :
    ∃ ep, c.vecfile.entryWithout v = some ep ∧ c.vecfile.graph.Leads ep n := by
  obtain ⟨ep, hep, hleads⟩ := hled
  rw [h.header] at hep
  refine ⟨ep, hep, hleads.of_edges .refl fun a b ha hedge => ?_⟩
  exact ha.tail (h.sameRecords.edge hedge)

/-- **After a deletion the entry point leads nowhere else.** -/
theorem Deleted.led (h : Deleted c c' rowid v) (hv : v < c.vecfile.header.nodeCount)
    (hled : c'.vecfile.Led n) : c.vecfile.Led n := by
  obtain ⟨ep, hep, hleads⟩ := h.leads hled
  unfold VecFile.entryWithout at hep
  by_cases hentry : c.vecfile.header.entryPoint = some v
  · rw [if_pos hentry] at hep
    have hedge : c.vecfile.graph.Edge v ep := ⟨0, ⟨hv, Nat.zero_le _⟩, List.mem_of_find?_eq_some hep⟩
    exact ⟨v, hentry, hleads.head hedge⟩
  · rw [if_neg hentry] at hep
    exact ⟨ep, hep, hleads⟩

end VectorCollection

end BoogyDb
