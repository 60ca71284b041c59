import BoogyDb.VectorSteps

/-!
# Calls on a vector collection

`CollectionInv` adds to the invariant of the file that the maps are inverse to each other and
name the live nodes.  One lemma for each call: an error leaves the collection alone, and a
call that fits keeps the invariant (`insert_ok`, `delete_ok`, `search_ok`).
-/

namespace BoogyDb

open VecFile Wp

/-- The invariant of a collection. -/
structure CollectionInv (c : VectorCollection) : Prop where
  graph : GraphInv c.vecfile
  dims_le : c.vecfile.header.dimensions ≤ 4096
  mapped : ∀ n, (∃ rowid, c.nodeToRowid.lookup n = some rowid) ↔ c.vecfile.Live n
  inverse : ∀ rowid n, c.rowidToNode.lookup rowid = some n ↔ c.nodeToRowid.lookup n = some rowid

namespace VectorCollection

variable {ε : Type} {a : Access ε} {c c' : VectorCollection} {rowid : UInt64}
  {vector : List UInt32} {v layer : ℕ}
  {distanceFn : DistanceMetric → List UInt32 → List UInt32 → UInt32} {order : HeapOrder}

theorem run_ofExcept {α : Type} {x : Except ε α} {r : α} (h : x = .ok r) (c : VectorCollection) :
    (ofExcept x : EStateM ε VectorCollection α) c = .ok r c := by
  rw [h]
  rfl

theorem run_set_bind {α : Type} {f : PUnit → EStateM ε VectorCollection α} :
    ((set c' : EStateM ε VectorCollection PUnit) >>= f) c = f ⟨⟩ c' := rfl

theorem run_code {α : Type} {x : Result α} {r : α} (h : x = .ok r) : a.run x = .ok r := by
  rw [h]
  rfl

/-- What an insertion does. -/
structure Inserted (c c' : VectorCollection) (rowid : UInt64) (layer v : ℕ) : Prop where
  inv : CollectionInv c'
  live : ∀ n, c'.vecfile.Live n ↔ n = v ∨ c.vecfile.Live n
  was : c.vecfile.header.freeListHead = some v ∨ c.vecfile.header.freeListHead = none
  entry : c'.vecfile.header.entryPoint = some v ∨
    c.vecfile.header.entryPoint.isSome ∧
      c'.vecfile.header.entryPoint = c.vecfile.header.entryPoint
  rowids : c'.rowidToNode = c.rowidToNode.insert rowid v

/-- How an insertion comes about: the node is added, the lists that it brings about are computed
and written, and then the header. -/
structure Built (a : Access ε)
    (distanceFn : DistanceMetric → List UInt32 → List UInt32 → UInt32) (order : HeapOrder)
    (c c' : VectorCollection) (vector : List UInt32) (layer v : ℕ) (f₁ f₂ : VecFile)
    (r : Hnsw.InsertResult) : Prop where
  added : addNode c.vecfile vector layer = .ok (v, f₁)
  adds : Adds c.vecfile f₁ v vector layer
  layered : f₁.graph.Layered
  entry : ∀ ep, f₁.header.entryPoint = some ep → f₁.graph.On f₁.header.maxLayer ep
  result : graphInsert a distanceFn order f₁ v layer = .ok r
  inserts : Hnsw.Inserts f₁.graph f₁.header.m v layer f₁.header.entryPoint f₁.header.maxLayer r
  applied : applyConnections a f₁ r.connections = .ok f₂
  layout : Layout f₂
  relinks : Relinks f₁ f₂
  newEntry : c'.vecfile.header.entryPoint =
    some (r.newEntryPoint.getD (f₁.header.entryPoint.getD v))
  same : ∀ n < f₂.header.nodeCapacity, VecFile.SameNode f₂ c'.vecfile n
  count : c'.vecfile.header.nodeCount = f₂.header.nodeCount

/-- The live nodes when one is added. -/
theorem Adds.live {f f' : VecFile} {free : List ℕ} (h : Adds f f' v vector layer)
    (hfree : FreeList f free) : ¬ f.Live v ∧ ∀ n, f'.Live n ↔ n = v ∨ f.Live n := by
  have hdead : ¬ f.Live v := by
    rintro ⟨hlt, hdel⟩
    rcases h.was with ⟨hhead, -⟩ | ⟨-, rfl⟩
    · have hchain := hfree.chain
      rw [hhead] at hchain
      cases hchain with
      | cons _ =>
          rw [((hfree.mem v).mp List.mem_cons_self).2] at hdel
          exact nomatch hdel
    · exact lt_irrefl _ hlt
  refine ⟨hdead, fun n => ?_⟩
  by_cases hne : n = v
  · subst hne
    exact ⟨fun _ => Or.inl rfl, fun _ => ⟨h.lt, h.deleted⟩⟩
  · rw [or_iff_right hne]
    unfold VecFile.Live
    rw [h.counted n hne]
    exact and_congr_right fun hn => by rw [(h.same n hn hne).deleted]

/-- Maps that are inverse to each other stay so when a new pair is put in. -/
theorem lookup_insert_pair {rowids : AList fun _ : UInt64 => ℕ} {nodes : AList fun _ : ℕ => UInt64}
    (hinverse : ∀ rowid n, rowids.lookup rowid = some n ↔ nodes.lookup n = some rowid)
    (hrowid : rowids.lookup rowid = none) (hv : nodes.lookup v = none) (rowid' : UInt64) (n : ℕ) :
    (rowids.insert rowid v).lookup rowid' = some n ↔
      (nodes.insert v rowid).lookup n = some rowid' := by
  by_cases hr : rowid' = rowid
  · subst hr
    rw [AList.lookup_insert, Option.some_inj]
    by_cases hn : n = v
    · subst hn
      rw [AList.lookup_insert]
      exact ⟨fun _ => rfl, fun _ => rfl⟩
    · rw [AList.lookup_insert_ne hn, ← hinverse, hrowid]
      exact ⟨fun h => absurd h.symm hn, fun h => nomatch h⟩
  · rw [AList.lookup_insert_ne hr]
    by_cases hn : n = v
    · subst hn
      rw [AList.lookup_insert, hinverse, hv, Option.some_inj]
      exact ⟨fun h => (nomatch h), fun h => absurd h.symm hr⟩
    · rw [AList.lookup_insert_ne hn, hinverse]

/-- The log entries of an insertion are short. -/
theorem insertEntries_length {nodeId newEp nodeCount newMax m : ℕ} {g : LayeredGraph}
    {connections : List Hnsw.Connection} (hvector : vector.length ≤ 2 ^ 16) (hm : m ≤ 128)
    (hall : ∀ c ∈ connections, Hnsw.Connects g m c) :
    ∀ entry ∈ insertEntries nodeId layer vector connections newEp nodeCount newMax,
      (payloadWords entry).length ≤ 2 ^ 16 := by
  intro entry hentry
  unfold insertEntries at hentry
  rw [List.cons_append, List.mem_cons, List.mem_append, List.mem_singleton] at hentry
  rcases hentry with rfl | hentry | rfl
  · exact hvector
  · obtain ⟨c, hc, rfl⟩ := List.mem_map.mp hentry
    have hlen := (hall c hc).length_le
    change (c.2.2.map UInt32.ofNat).length ≤ 2 ^ 16
    rw [List.length_map]
    split at hlen <;> omega
  · exact Nat.zero_le _

/-- A vector of another length is refused. -/
theorem insert_wrongLength (hlen : vector.length ≠ c.vecfile.header.dimensions) :
    insert a distanceFn order rowid vector layer c = .error (a.lift
      (.error (.vectorDimensionMismatch c.vecfile.header.dimensions vector.length))) c := by
  unfold insert
  rw [run_bind_ok (rfl : (get : EStateM ε VectorCollection VectorCollection) c = .ok c c)]
  dsimp only
  rw [if_pos hlen]
  rfl

/-- What is asked of a vector that is inserted. -/
theorem insert_accepts (hrun : insert a distanceFn order rowid vector layer c = .ok v c') :
    vector.length = c.vecfile.header.dimensions ∧ rowid ∉ c.rowidToNode := by
  by_cases hlen : vector.length = c.vecfile.header.dimensions
  · refine ⟨hlen, fun hmem => ?_⟩
    unfold insert at hrun
    rw [run_bind_ok (rfl : (get : EStateM ε VectorCollection VectorCollection) c = .ok c c)] at hrun
    dsimp only at hrun
    rw [if_neg (not_not_intro hlen), if_pos hmem] at hrun
    cases hrun
  · rw [insert_wrongLength hlen] at hrun
    cases hrun

/-- An insertion that fits fails without a change, overflows, or is built step by step. -/
theorem insert_built (ha : a.Sound) (hc : CollectionInv c) (hlayer : layer < 2 ^ 32)
    (hfits : vector.length = c.vecfile.header.dimensions → rowid ∉ c.rowidToNode →
      c.vecfile.InsertFits layer) :
    ((vector.length ≠ c.vecfile.header.dimensions ∨ rowid ∈ c.rowidToNode) ∧
        ∃ e, insert a distanceFn order rowid vector layer c = .error (a.lift (.error e)) c) ∨
      insert a distanceFn order rowid vector layer c = .error (a.lift .overflow) c ∨
      ∃ v c', insert a distanceFn order rowid vector layer c = .ok v c' ∧
        Inserted c c' rowid layer v ∧
          ∃ f₁ f₂ r, Built a distanceFn order c c' vector layer v f₁ f₂ r := by
  unfold insert
  rw [run_bind_ok (rfl : (get : EStateM ε VectorCollection VectorCollection) c = .ok c c)]
  dsimp only
  by_cases hdims : vector.length = c.vecfile.header.dimensions
  swap
  · rw [if_pos hdims]
    exact Or.inl ⟨Or.inl hdims, _, rfl⟩
  rw [if_neg (not_not_intro hdims)]
  by_cases hmem : rowid ∈ c.rowidToNode
  · rw [if_pos hmem]
    exact Or.inl ⟨Or.inr hmem, _, rfl⟩
  rw [if_neg hmem]
  obtain ⟨hlayout, ⟨free, hfree⟩, hlayered, hentry⟩ := hc.graph
  have hfits := hfits hdims hmem
  -- from here on the call can only overflow: `addNode` is the last step that may fail
  rcases addNode_ok hlayout hfree hdims hlayer hfits.room with hover | ⟨v, f₁, hadd, hadds⟩
  · refine Or.inr (Or.inl ?_)
    rw [hover]
    rfl
  refine Or.inr (Or.inr ?_)
  obtain ⟨hlayered₁, hentry₁⟩ := Adds.layered hadds hc.graph hfits
  have hreads := readsAs ha hadds.layout hlayered₁
  obtain ⟨r, hgraph, hinserts⟩ := @Hnsw.insert_ok _ (distanceFn f₁.header.metric) _ order _
    f₁.header.m v layer hreads f₁.header.entryPoint f₁.header.maxLayer f₁.header.efConstruction
    (Adds.on_self hadds) hentry₁
  have hgraph : graphInsert a distanceFn order f₁ v layer = .ok r := hgraph
  set newEp := r.newEntryPoint.getD (f₁.header.entryPoint.getD v) with hnewEp
  set newMax := r.newMaxLayer.getD f₁.header.maxLayer with hnewMax
  have hentryEq : f₁.header.entryPoint = c.vecfile.header.entryPoint := by rw [hadds.header]
  -- the entry point stays, or the new node becomes it
  have hnewOn : f₁.graph.On newMax newEp ∧ (newEp = v ∨
      c.vecfile.header.entryPoint.isSome ∧ some newEp = c.vecfile.header.entryPoint) := by
    rcases hinserts.entry with ⟨hnone, hnone', hsome, -⟩ | ⟨hnew, hnew'⟩
    · obtain ⟨ep, hep⟩ := Option.isSome_iff_exists.mp hsome
      rw [hnewEp, hnewMax, hnone, hnone', hep, Option.getD_none, Option.getD_none, Option.getD_some]
      refine ⟨hentry₁ ep hep, Or.inr ?_⟩
      rw [← hentryEq, hep]
      exact ⟨rfl, rfl⟩
    · rw [hnewEp, hnewMax, hnew, hnew', Option.getD_some, Option.getD_some]
      exact ⟨Adds.on_self hadds, Or.inl rfl⟩
  have hshort : vector.length ≤ 2 ^ 16 := by
    have hle := hc.dims_le
    omega
  have hentries : ∀ entry ∈ insertEntries v layer vector r.connections newEp f₁.header.nodeCount
      newMax, (payloadWords entry).length ≤ 2 ^ 16 :=
    insertEntries_length hshort hadds.layout.shape.m_le hinserts.connects
  -- the log is written before the lists, and truncated once the file has all of them
  obtain ⟨wal, hlog⟩ := @appendCommitted_ok _ a _ hentries { c with vecfile := f₁ }
  obtain ⟨f₂, happly, hlayout₂, hlayered₂, hrelinks⟩ :=
    applyConnections_ok ha hadds.layout hlayered₁ hinserts.connects
  obtain ⟨rest, hrest⟩ := hadds.free
  have hrest₂ := hrelinks.free hadds.layout hrest
  obtain ⟨f₃, hflush, hheader₃, hinv₃, hsame₃⟩ := @storeEntry_ok _ _ hlayout₂ hrest₂ hlayered₂
    (some newEp) newMax fun ep hep => by
      cases hep
      exact hrelinks.on.mpr hnewOn.1
  obtain ⟨hdead, hlive₁⟩ := Adds.live hadds hfree
  have hlive : ∀ n, f₃.Live n ↔ n = v ∨ c.vecfile.Live n := by
    intro n
    rw [← hlive₁ n]
    unfold VecFile.Live
    rw [hheader₃, hrelinks.header]
    refine and_congr_right fun hn => ?_
    have hn₂ : n < f₂.header.nodeCapacity := hlayout₂.lt_cap (hrelinks.header ▸ hn)
    rw [(hsame₃ n hn₂).deleted, (hrelinks.parts n (hadds.layout.lt_cap hn)).2.2.1]
  have hnodeNone : c.nodeToRowid.lookup v = none := by
    cases hlookup : c.nodeToRowid.lookup v with
    | none => rfl
    | some r => exact absurd ((hc.mapped v).mp ⟨r, hlookup⟩) hdead
  have hrowidNone : c.rowidToNode.lookup rowid = none := AList.lookup_eq_none.mpr hmem
  have hdims₃ : f₃.header.dimensions = c.vecfile.header.dimensions := by
    rw [hheader₃, hrelinks.header, hadds.header]
  refine ⟨v, { c with
    vecfile := f₃
    wal := wal.truncate
    rowidToNode := c.rowidToNode.insert rowid v
    nodeToRowid := c.nodeToRowid.insert v rowid }, ?_, ?_, f₁, f₂, r, hadd, hadds, hlayered₁, hentry₁,
    hgraph, hinserts, happly, hlayout₂, hrelinks, ?_, hsame₃, ?_⟩
  · rw [run_bind_ok (run_ofExcept (run_code hadd) c)]
    dsimp only
    rw [run_set_bind, run_bind_ok (run_ofExcept hgraph _), run_bind_ok hlog,
      run_bind_ok (run_ofExcept happly _),
      run_bind_ok (run_ofExcept (run_code hflush) _)]
    rfl
  · refine ⟨⟨hinv₃, ?_, fun n => ?_, ?_⟩, hlive, ?_, ?_, rfl⟩
    · rw [hdims₃]
      exact hc.dims_le
    · dsimp only
      rw [hlive n, ← hc.mapped n]
      by_cases hne : n = v
      · subst hne
        rw [AList.lookup_insert]
        exact ⟨fun _ => Or.inl rfl, fun _ => ⟨rowid, rfl⟩⟩
      · rw [AList.lookup_insert_ne hne, or_iff_right hne]
    · exact lookup_insert_pair hc.inverse hrowidNone hnodeNone
    · exact hadds.was.imp And.left And.left
    · dsimp only
      rw [hheader₃]
      rcases hnewOn.2 with heq | ⟨hsome, heq⟩
      · exact Or.inl (congrArg some heq)
      · exact Or.inr ⟨hsome, heq⟩
  · rw [hheader₃]
  · rw [hheader₃]

/-- **An insertion that fits fails without a change, overflows, or keeps the invariant.** -/
theorem insert_ok (ha : a.Sound) (hc : CollectionInv c) (hlayer : layer < 2 ^ 32)
    (hfits : vector.length = c.vecfile.header.dimensions → rowid ∉ c.rowidToNode →
      c.vecfile.InsertFits layer) :
    ((vector.length ≠ c.vecfile.header.dimensions ∨ rowid ∈ c.rowidToNode) ∧
        ∃ e, insert a distanceFn order rowid vector layer c = .error (a.lift (.error e)) c) ∨
      insert a distanceFn order rowid vector layer c = .error (a.lift .overflow) c ∨
      ∃ v c', insert a distanceFn order rowid vector layer c = .ok v c' ∧
        Inserted c c' rowid layer v := by
  rcases @insert_built _ a c rowid vector layer distanceFn order ha hc hlayer hfits with
    hrefused | hover | ⟨v, c', hrun, hins, -⟩
  · exact Or.inl hrefused
  · exact Or.inr (Or.inl hover)
  · exact Or.inr (Or.inr ⟨v, c', hrun, hins⟩)

/-! ## Deletion -/

theorem firstLive_ok {f : VecFile} (hf : Layout f) {neighbors : List ℕ}
    (hall : ∀ x ∈ neighbors, x < f.header.nodeCount) :
    firstLive f neighbors = .ok (neighbors.find? fun n => !f.deletedOf n) := by
  induction neighbors with
  | nil => rfl
  | cons x neighbors ih =>
      rw [List.forall_mem_cons] at hall
      unfold firstLive
      rw [hf.shape.isDeleted (hf.lt_cap hall.1), ok_bind]
      cases hdel : f.deletedOf x with
      | true =>
          rw [List.find?_cons_of_neg (by rw [hdel]; exact Bool.false_ne_true)]
          exact ih hall.2
      | false =>
          rw [List.find?_cons_of_pos (by rw [hdel]; rfl)]
          rfl

theorem entryAfterDelete_ok {f : VecFile} (ha : a.Sound) (hf : GraphInv f)
    (hv : v < f.header.nodeCount) : entryAfterDelete a f v = .ok (f.entryWithout v) := by
  have hon : f.graph.On 0 v := ⟨hv, Nat.zero_le _⟩
  unfold entryAfterDelete VecFile.entryWithout
  split
  · rw [ha.read f 0 v hf.layout hf.layered hon, Except.ok_bind]
    exact run_code (firstLive_ok hf.layout fun x hx => (hf.layered 0 v hon x hx).1)
  · rfl

/-- The entry point after a deletion has the layers of the one before. -/
theorem entryWithout_on {f : VecFile} (hf : GraphInv f) (hv : v < f.header.nodeCount)
    (hfits : f.DeleteFits v) {ep : ℕ} (hep : f.entryWithout v = some ep) :
    f.graph.On f.header.maxLayer ep := by
  by_cases hentry : f.header.entryPoint = some v
  · have hle := hfits ep hentry hep
    have hon : f.graph.On 0 v := ⟨hv, Nat.zero_le _⟩
    unfold VecFile.entryWithout at hep
    rw [if_pos hentry] at hep
    exact ⟨(hf.layered 0 v hon ep (List.mem_of_find?_eq_some hep)).1, hle⟩
  · unfold VecFile.entryWithout at hep
    rw [if_neg hentry] at hep
    exact hf.entry ep hep

/-- A freed live node is put in front of the free list. -/
theorem Frees.freeList {f f' : VecFile} {free : List ℕ} (h : Frees f f' v) (hf : Shape f)
    (hfree : FreeList f free) (hv : f.Live v) : FreeList f' (v :: free) := by
  have hcount : f'.header.nodeCount = f.header.nodeCount := by rw [h.header]
  have hcap : ∀ n < f.header.nodeCount, n < f.header.nodeCapacity := fun n hn =>
    hn.trans_le hf.count_le
  have hnew : v ∉ free := by
    intro hmem
    have hdel := ((hfree.mem v).mp hmem).2
    rw [hv.2] at hdel
    exact nomatch hdel
  refine ⟨?_, List.nodup_cons.mpr ⟨hnew, hfree.nodup⟩, fun n => ?_, ?_⟩
  · rw [h.header]
    refine .cons ?_
    have hlink : optionU32 (f'.linkOf v) = f.header.freeListHead := by
      rw [h.link]
      cases hhead : f.header.freeListHead with
      | none => rfl
      | some head =>
          have hchain := hfree.chain
          rw [hhead] at hchain
          cases hchain with
          | cons _ =>
              have hlt := lt_noneU32 hf ((hfree.mem head).mp List.mem_cons_self).1
              exact if_neg hlt.ne
    rw [hlink]
    refine hfree.chain.congr fun n hn => ?_
    have hlt := hcap n ((hfree.mem n).mp hn).1
    exact (h.others n hlt (ne_of_mem_of_not_mem hn hnew)).2.1
  · rw [List.mem_cons, hcount]
    by_cases hne : n = v
    · subst hne
      exact ⟨fun _ => ⟨hv.1, h.deleted⟩, fun _ => Or.inl rfl⟩
    · rw [or_iff_right hne, hfree.mem n]
      exact and_congr_right fun hn => by rw [(h.others n (hcap n hn) hne).2.2]
  · rw [h.header, List.length_cons, ← hfree.length]

/-- What freeing a live node does to the graph. -/
theorem Frees.graph {f f' : VecFile} {free : List ℕ} (h : Frees f f' v) (hf : Layout f)
    (hfree : FreeList f free) (hv : f.Live v) :
    Layout f' ∧ FreeList f' (v :: free) ∧ (∀ n < f.header.nodeCount, VecFile.SameRecord f f' n) ∧
      ∀ n, f'.Live n ↔ n ≠ v ∧ f.Live n := by
  have hcount : f'.header.nodeCount = f.header.nodeCount := by rw [h.header]
  have hcap : f'.header.nodeCapacity = f.header.nodeCapacity := by rw [h.header]
  have hrecord : ∀ n < f.header.nodeCount, VecFile.SameRecord f f' n := fun n hn =>
    h.record n (hf.lt_cap hn) (hf.records.record hn)
  refine ⟨⟨h.shape, ?_, fun {n} hle hlt => ?_⟩, Frees.freeList h hf.shape hfree hv, hrecord, fun n => ?_⟩
  · have hrecords := hf.records.congr (by rw [h.header]) (by rw [h.header]) hrecord
    rwa [← hcount] at hrecords
  · rw [hcount] at hle
    rw [hcap] at hlt
    rw [(h.others n hlt (hv.1.trans_le hle).ne').2.2]
    exact hf.fresh hle hlt
  · unfold VecFile.Live
    rw [hcount]
    by_cases hne : n = v
    · subst hne
      rw [h.deleted]
      exact ⟨fun hn => (nomatch hn.2), fun hn => absurd rfl hn.1⟩
    · constructor
      · rintro ⟨hn, hdel⟩
        rw [(h.others n (hf.lt_cap hn) hne).2.2] at hdel
        exact ⟨hne, hn, hdel⟩
      · rintro ⟨-, hn, hdel⟩
        rw [(h.others n (hf.lt_cap hn) hne).2.2]
        exact ⟨hn, hdel⟩

/-- What a deletion does. -/
structure Deleted (c c' : VectorCollection) (rowid : UInt64) (v : ℕ) : Prop where
  inv : CollectionInv c'
  was : c.rowidToNode.lookup rowid = some v
  live : ∀ n, c'.vecfile.Live n ↔ n ≠ v ∧ c.vecfile.Live n
  rowids : c'.rowidToNode = c.rowidToNode.erase rowid
  header : c'.vecfile.header = { c.vecfile.header with
    entryPoint := c.vecfile.entryWithout v
    freeListHead := some v
    freeListLen := c'.vecfile.header.freeListLen }
  record : ∀ n < c.vecfile.header.nodeCount, VecFile.SameRecord c.vecfile c'.vecfile n

/-- Maps that are inverse to each other stay so when a pair is taken out. -/
theorem lookup_erase_pair {rowids : AList fun _ : UInt64 => ℕ} {nodes : AList fun _ : ℕ => UInt64}
    (hinverse : ∀ rowid n, rowids.lookup rowid = some n ↔ nodes.lookup n = some rowid)
    (hv : rowids.lookup rowid = some v) (rowid' : UInt64) (n : ℕ) :
    (rowids.erase rowid).lookup rowid' = some n ↔ (nodes.erase v).lookup n = some rowid' := by
  have hnode := (hinverse rowid v).mp hv
  by_cases hr : rowid' = rowid
  · subst hr
    rw [AList.lookup_erase]
    by_cases hn : n = v
    · subst hn
      rw [AList.lookup_erase]
      exact ⟨fun h => (nomatch h), fun h => (nomatch h)⟩
    · rw [AList.lookup_erase_ne hn, ← hinverse, hv, Option.some_inj]
      exact ⟨fun h => (nomatch h), fun h => absurd h.symm hn⟩
  · rw [AList.lookup_erase_ne hr]
    by_cases hn : n = v
    · subst hn
      rw [AList.lookup_erase, hinverse, hnode, Option.some_inj]
      exact ⟨fun h => absurd h.symm hr, fun h => (nomatch h)⟩
    · rw [AList.lookup_erase_ne hn, hinverse]

/-- **A deletion that fits fails without a change, or keeps the invariant.** -/
theorem delete_ok (ha : a.Sound) (hc : CollectionInv c)
    (hfits : ∀ v, c.rowidToNode.lookup rowid = some v → c.vecfile.DeleteFits v) :
    (∃ e, delete a rowid c = .error (a.lift (.error e)) c) ∨
      ∃ v c', delete a rowid c = .ok () c' ∧ Deleted c c' rowid v := by
  unfold delete
  rw [run_bind_ok (rfl : (get : EStateM ε VectorCollection VectorCollection) c = .ok c c)]
  dsimp only
  cases hlookup : c.rowidToNode.lookup rowid with
  | none => exact Or.inl ⟨_, rfl⟩
  | some v =>
      refine Or.inr ⟨v, ?_⟩
      obtain ⟨hlayout, ⟨free, hfree⟩, hlayered, hentry⟩ := hc.graph
      have hfits := hfits v hlookup
      have hlive : c.vecfile.Live v := (hc.mapped v).mp ⟨rowid, (hc.inverse rowid v).mp hlookup⟩
      -- the new entry point is looked for while the node is still there
      have hentryOk := entryAfterDelete_ok ha hc.graph hlive.1
      set newEp := c.vecfile.entryWithout v with hnewEp
      have hnewFree : v ∉ free := by
        intro hmem
        have hdel := ((hfree.mem v).mp hmem).2
        rw [hlive.2] at hdel
        exact nomatch hdel
      -- the freed nodes and `v` are different counted nodes, so their number is a `u32`
      have hlen : c.vecfile.header.freeListLen + 1 < 2 ^ 32 := by
        have hsub : v :: free ⊆ List.range c.vecfile.header.nodeCount := by
          refine List.cons_subset.mpr ⟨List.mem_range.mpr hlive.1, fun n hn => ?_⟩
          exact List.mem_range.mpr ((hfree.mem n).mp hn).1
        have hle := ((List.nodup_cons.mpr ⟨hnewFree, hfree.nodup⟩).subperm hsub).length_le
        rw [List.length_range, List.length_cons] at hle
        have hcount := hlayout.shape.count_le
        have hcap := hlayout.shape.cap_lt
        rw [hfree.length]
        omega
      have hhead : ∀ head, c.vecfile.header.freeListHead = some head → head < 2 ^ 32 := by
        intro head hhead
        have hchain := hfree.chain
        rw [hhead] at hchain
        cases hchain with
        | cons _ =>
            have hlt := lt_noneU32 hlayout.shape ((hfree.mem head).mp List.mem_cons_self).1
            exact hlt.trans (by decide)
      obtain ⟨f₁, hrun₁, hfrees⟩ := freeNode_ok hlayout.shape (hlayout.lt_cap hlive.1) hhead hlen
      obtain ⟨hlayout₁, hfree₁, hrecord₁, hlive₁⟩ := Frees.graph hfrees hlayout hfree hlive
      have hcount₁ : f₁.header.nodeCount = c.vecfile.header.nodeCount := by rw [hfrees.header]
      have hsame₁ : VecFile.SameRecords c.vecfile f₁ := ⟨hcount₁, hrecord₁⟩
      have hlayered₁ := hsame₁.layered hlayered
      obtain ⟨f₂, hflush, hheader₂, hinv₂, hsame₂⟩ := @storeEntry_ok _ _ hlayout₁ hfree₁ hlayered₁
        newEp f₁.header.maxLayer fun ep hep => by
          rw [hsame₁.on, hfrees.header]
          exact entryWithout_on hc.graph hlive.1 hfits hep
      have hlive₂ : ∀ n, f₂.Live n ↔ n ≠ v ∧ c.vecfile.Live n := by
        intro n
        rw [← hlive₁ n]
        unfold VecFile.Live
        rw [hheader₂]
        exact and_congr_right fun hn => by rw [(hsame₂ n (hlayout₁.lt_cap hn)).deleted]
      obtain ⟨wal, hlog⟩ := @appendCommitted_ok _ a [.deleteNode (UInt32.ofNat v),
        .updateHeader (UInt32.ofNat (newEp.getD noneU32)) (UInt32.ofNat c.vecfile.header.nodeCount)
          (UInt32.ofNat c.vecfile.header.maxLayer)]
        (by
          intro entry hentry
          rw [List.mem_cons, List.mem_singleton] at hentry
          rcases hentry with rfl | rfl <;> exact Nat.zero_le _)
        { c with
          rowidToNode := c.rowidToNode.erase rowid
          nodeToRowid := c.nodeToRowid.erase v }
      refine ⟨{ vecfile := f₂
                wal := wal.truncate
                rowidToNode := c.rowidToNode.erase rowid
                nodeToRowid := c.nodeToRowid.erase v }, ?_, ?_⟩
      · dsimp only
        rw [run_set_bind, run_bind_ok (run_ofExcept hentryOk _), run_bind_ok hlog,
          run_bind_ok (run_ofExcept (run_code hrun₁) _), run_bind_ok (run_ofExcept (run_code hflush) _)]
        rfl
      · have hheader : f₂.header = { c.vecfile.header with
            entryPoint := newEp
            freeListHead := some v
            freeListLen := f₂.header.freeListLen } := by
          rw [hheader₂, hfrees.header]
        refine ⟨⟨hinv₂, ?_, fun n => ?_, ?_⟩, hlookup, hlive₂, rfl, hheader, fun n hn => ?_⟩
        · dsimp only
          rw [hheader]
          exact hc.dims_le
        · dsimp only
          rw [hlive₂ n, ← hc.mapped n]
          by_cases hne : n = v
          · subst hne
            rw [AList.lookup_erase]
            exact ⟨fun ⟨_, h⟩ => (nomatch h), fun h => absurd rfl h.1⟩
          · rw [AList.lookup_erase_ne hne]
            exact ⟨fun h => ⟨hne, h⟩, fun h => h.2⟩
        · exact lookup_erase_pair hc.inverse hlookup
        · exact (hrecord₁ n hn).trans (hsame₂ n (hlayout₁.lt_cap (hcount₁ ▸ hn))).record

/-! ## Search -/

/-- **A search fails on a query of another length only.**  It finds something when it starts at a
live node, and nothing when there are none. -/
theorem search_ok (ha : a.Sound) (hc : CollectionInv c) {query : List UInt32} {k efSearch : ℕ}
    {rowLoader : Option (UInt64 → Option (List (String × Value)))} {filter : Option Filter} :
    (∃ e, search a distanceFn order c query k efSearch rowLoader filter =
      .error (a.lift (.error e))) ∧ query.length ≠ c.vecfile.header.dimensions ∨
    ∃ found, search a distanceFn order c query k efSearch rowLoader filter = .ok found ∧
      (∀ r ∈ found, ∃ n, c.rowidToNode.lookup r.rowid = some n) ∧
      (0 < k → filter = none → (∃ ep, c.vecfile.header.entryPoint = some ep ∧
        c.vecfile.Live ep) → found ≠ []) := by
  unfold search
  dsimp only
  by_cases hdims : query.length = c.vecfile.header.dimensions
  swap
  · rw [if_pos hdims]
    exact Or.inl ⟨⟨_, rfl⟩, hdims⟩
  rw [if_neg (not_not_intro hdims)]
  refine Or.inr ?_
  cases hentry : c.vecfile.header.entryPoint with
  | none => exact ⟨[], rfl, by simp, fun _ _ h => nomatch h⟩
  | some ep =>
      have hreads := readsAs ha hc.graph.layout hc.graph.layered
      obtain ⟨found, hrun, hfound, hne⟩ := @Hnsw.search_ok _
        (distanceFn c.vecfile.header.metric) _ order _ query hreads k efSearch ep
        c.vecfile.header.maxLayer (allowed c rowLoader filter) (hc.graph.entry ep hentry)
      have hmapped : ∀ r ∈ found, ∃ rowid, c.nodeToRowid.lookup r.1 = some rowid := fun r hr =>
        (hc.mapped r.1).mpr ⟨(hfound r hr).on.1, (hfound r hr).live⟩
      refine ⟨found.filterMap fun n => (c.nodeToRowid.lookup n.1).map fun rowid => ⟨rowid, n.2⟩,
        ?_, fun r hr => ?_, ?_⟩
      · dsimp only
        rw [hrun]
        rfl
      · obtain ⟨n, hn, hsome⟩ := List.mem_filterMap.mp hr
        obtain ⟨rowid, hlookup⟩ := hmapped n hn
        rw [hlookup] at hsome
        cases hsome
        exact ⟨n.1, (hc.inverse rowid n.1).mpr hlookup⟩
      · rintro hk rfl ⟨ep', hep', hlive⟩ hnil
        cases hep'
        have hall : ∀ n, allowed c rowLoader none n = true := by
          intro n
          unfold allowed
          cases rowLoader <;> rfl
        have hsome := hne hk hlive.2 hall
        obtain ⟨r, hr⟩ := List.exists_mem_of_ne_nil found hsome
        obtain ⟨rowid, hlookup⟩ := hmapped r hr
        have hmem : (⟨rowid, r.2⟩ : VectorResult) ∈ found.filterMap fun n =>
            (c.nodeToRowid.lookup n.1).map fun rowid => (⟨rowid, n.2⟩ : VectorResult) := by
          refine List.mem_filterMap.mpr ⟨r, hr, ?_⟩
          rw [hlookup]
          rfl
        rw [hnil] at hmem
        exact absurd hmem List.not_mem_nil

end VectorCollection

end BoogyDb
