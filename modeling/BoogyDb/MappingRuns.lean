import BoogyDb.MappingNames
import BoogyDb.MappingTable
import BoogyDb.VectorMaps

/-!
# The internal table follows the collection

A vector call changes the collection first and the internal table after it, and nothing is
undone when a later part fails.  There are three ways to leave the table behind:

* a batch stops at an entry that is refused, after others were inserted;
* an update has deleted the old node when its vector turns out to have the wrong length;
* the table does not take a write.

A call that meets none of them (`VectorDbCall.Whole`) keeps the pairs of the table equal to the
map of the collection, whether it returns a value or an error (`VectorDbRun.mapping_follows`).
-/

namespace BoogyDb

open Wp VecFile

variable {distanceFn : DistanceMetric → List UInt32 → List UInt32 → UInt32} {order : HeapOrder}
  {table collection name : String} {s s' : VectorDb} {c c' : VectorCollection} {db : Db}
  {rowid : UInt64} {vector : List UInt32} {layer nodeId : ℕ}

/-! ## The map of a collection -/

/-- The nodes of a map are counted. -/
theorem MapsInv.node_lt (h : MapsInv c) (hnode : c.rowidToNode.lookup rowid = some nodeId) :
    nodeId < c.vecfile.header.nodeCount :=
  h.nodes.counted nodeId ⟨rowid, (h.inverse rowid nodeId).mp hnode⟩

/-- A node that is mapped is less than the limit of a query. -/
theorem MapsInv.lt_noLimit (h : MapsInv c) (hnode : c.rowidToNode.lookup rowid = some nodeId) :
    nodeId < noLimit := by
  have hlt := h.node_lt hnode
  have hle := h.nodes.sized.count_le
  have hcap := h.nodes.sized.cap_lt
  unfold noLimit
  omega

/-- Pairs are put one after the other. -/
def putPairs (pairs : UInt64 → Option ℕ) (ids : List (UInt64 × ℕ)) : UInt64 → Option ℕ :=
  ids.foldl (fun pairs e => Function.update pairs e.1 (some e.2)) pairs

/-- The entries are accepted one after the other. -/
structure VectorCollection.AcceptsAll (c : VectorCollection)
    (entries : List (UInt64 × List UInt32 × ℕ)) : Prop where
  each : ∀ e ∈ entries, c.Accepts e.1 e.2.1
  nodup : (entries.map Prod.fst).Nodup

/-- **Entries that are accepted** are inserted one after the other, and none is refused. -/
theorem wp_insertEntries {entries : List (UInt64 × List UInt32 × ℕ)} (hc : MapsInv c)
    (h : c.AcceptsAll entries) :
    wp (VectorDb.insertEntries distanceFn order entries)
      (fun ids c' => ids.map Prod.fst = entries.map Prod.fst ∧ MapsInv c' ∧
        (∀ e ∈ ids, e.2 < c.vecfile.header.nodeCount + entries.length) ∧
        c'.rowidToNode.lookup = putPairs c.rowidToNode.lookup ids)
      (fun e _ => NotError e) c := by
  induction entries generalizing c with
  | nil => exact ⟨rfl, hc, nofun, rfl⟩
  | cons entry entries ih =>
      obtain ⟨rowid, vector, layer⟩ := entry
      obtain ⟨heach, hnodup⟩ := h
      rw [List.forall_mem_cons] at heach
      rw [List.map_cons, List.nodup_cons] at hnodup
      unfold VectorDb.insertEntries
      refine wp_bind.mpr ((VectorCollection.wp_insert hc).mono ?_ ?_)
      swap
      · exact fun e _ hrefused error heq => (hrefused error heq).1 heach.1
      rintro v c₁ ⟨-, hmaps₁, hrowids₁, hdims₁, hcount₁⟩
      have hv : v < c₁.vecfile.header.nodeCount :=
        hmaps₁.node_lt (by rw [hrowids₁, AList.lookup_insert])
      -- the row ids that are left are still free
      have haccepts : c₁.AcceptsAll entries := by
        refine ⟨fun e he => ⟨?_, ?_⟩, hnodup.2⟩
        · rw [hdims₁]
          exact (heach.2 e he).1
        · rw [hrowids₁, AList.mem_insert, not_or]
          refine ⟨?_, (heach.2 e he).2⟩
          rintro rfl
          exact hnodup.1 (List.mem_map.mpr ⟨e, he, rfl⟩)
      refine wp_bind.mpr ((ih hmaps₁ haccepts).post ?_)
      rintro ids c' ⟨hids, hmaps', hlt, hlookup⟩
      rw [List.length_cons]
      refine ⟨?_, hmaps', List.forall_mem_cons.mpr ⟨by omega, fun e he => ?_⟩, ?_⟩
      · rw [List.map_cons, List.map_cons, hids]
      · have hle := hlt e he
        omega
      · rw [hlookup, hrowids₁, AList.lookup_insert_eq_update]
        rfl

/-- A batch whose first entry is refused changes nothing. -/
theorem wp_insertEntries_refused {entries : List (UInt64 × List UInt32 × ℕ)} (hc : MapsInv c)
    (h : ¬ c.Accepts rowid vector) :
    wp (VectorDb.insertEntries distanceFn order ((rowid, vector, layer) :: entries))
      (fun _ _ => False) (fun e c' => ∀ error, e = .error error → c' = c) c := by
  unfold VectorDb.insertEntries
  refine wp_bind.mpr ((VectorCollection.wp_insert hc).mono ?_ ?_)
  · exact fun v c₁ hinserted => absurd hinserted.1 h
  · exact fun e _ hrefused error heq => (hrefused error heq).2

/-- **An update** whose vector has the right length maps the row id to another node, or changes
nothing. -/
theorem wp_update (hc : MapsInv c)
    (hlen : rowid ∈ c.rowidToNode → vector.length = c.vecfile.header.dimensions) :
    wp (VectorCollection.update Access.code distanceFn order rowid vector layer)
      (fun v c' => rowid ∈ c.rowidToNode ∧ MapsInv c' ∧
        c'.rowidToNode.lookup = Function.update c.rowidToNode.lookup rowid (some v) ∧
        c'.vecfile.header.nodeCount ≤ c.vecfile.header.nodeCount + 1)
      (fun e c' => ∀ error, e = .error error → c' = c) c := by
  unfold VectorCollection.update
  refine wp_bind.mpr ((VectorCollection.wp_delete hc).mono ?_ ?_)
  swap
  · exact fun e _ hrefused error heq => (hrefused error heq).2
  rintro _ c₁ ⟨hmem, hmaps₁, hrowids₁, hdims₁, hcount₁⟩
  refine (VectorCollection.wp_insert hmaps₁).mono ?_ ?_
  · rintro v c' ⟨-, hmaps', hrowids', -, hcount'⟩
    refine ⟨hmem, hmaps', ?_, hcount₁ ▸ hcount'⟩
    rw [hrowids', AList.lookup_insert_eq_update, hrowids₁, AList.lookup_erase_eq_update,
      Function.update_idem]
  · -- the row id is free, and the length is right
    intro e c' hrefused error heq
    refine absurd ⟨(hlen hmem).trans hdims₁.symm, ?_⟩ (hrefused error heq).1
    rw [hrowids₁]
    exact AList.lookup_eq_none.mp (AList.lookup_erase _ _)

/-! ## Parts of a call -/

theorem wp_inDb {α : Type} {x : StateResult Db α} {Q : α → Db → Prop} {E : Fault → Db → Prop}
    (h : wp x Q E s.db) :
    wp (VectorDb.inDb x) (fun a s' => Q a s'.db ∧ s' = { s with db := s'.db })
      (fun e s' => E e s'.db ∧ s' = { s with db := s'.db }) s := by
  rw [wp, VectorDb.inDb]
  cases hx : x s.db with
  | ok a db => exact ⟨h.ok hx, rfl⟩
  | error e db => exact ⟨h.error hx, rfl⟩

/-- A call on a collection changes that collection. -/
theorem wp_withCollection {α : Type} {x : EStateM Fault VectorCollection α}
    {Q : α → VectorCollection → Prop} {E : Fault → VectorCollection → Prop}
    (hc : s.collections.lookup (table, collection) = some c) (h : wp x Q E c) :
    wp (VectorDb.withCollection table collection x)
      (fun a s' => ∃ c', Q a c' ∧ s'.collections.lookup (table, collection) = some c' ∧
        s'.db = s.db)
      (fun e s' => ∃ c', E e c' ∧ s'.collections.lookup (table, collection) = some c' ∧
        s'.db = s.db) s := by
  have hreplace : ∀ c', (s.collections.replace (table, collection) c').lookup (table, collection) =
      some c' := fun c' => AList.lookup_replace (Option.isSome_of_eq_some hc)
  rw [wp, VectorDb.withCollection]
  dsimp only
  rw [hc]
  dsimp only
  cases hx : x c with
  | ok a c' => exact ⟨c', h.ok hx, hreplace c', rfl⟩
  | error e c' => exact ⟨c', h.error hx, hreplace c', rfl⟩

section

variable [Crc32Fast]

/-! ## Writes that go through -/

/-- The internal table takes a pair for each of the row ids, one after the other, whichever of the
first nodes they have. -/
def TakesPairs (name : String) (bound : ℕ) : List UInt64 → Db → Prop
  | [], _ => True
  | rowid :: rowids, db => ∀ nodeId < bound, ∃ db',
      MappingWrites.code.put name rowid nodeId db = .ok () db' ∧ TakesPairs name bound rowids db'

/-- The row with the id can be deleted from the internal table, and then `next` holds. -/
def Drops (name : String) (rowid : UInt64) (db : Db) (next : Db → Prop) : Prop :=
  ∃ reply db', (RowCall.delete rowid).perform .code name db = .ok reply db' ∧ next db'

/-- **A put that the table takes** adds its pair. -/
theorem MappingTable.wp_put {pairs : UInt64 → Option ℕ} {rowids : List UInt64} {bound : ℕ}
    (h : MappingTable s.db name pairs) (hnode : nodeId < bound)
    (htakes : TakesPairs name bound (rowid :: rowids) s.db) :
    wp (VectorDb.inDb (MappingWrites.code.put name rowid nodeId))
      (fun _ s' => MappingTable s'.db name (Function.update pairs rowid (some nodeId)) ∧
        TakesPairs name bound rowids s'.db ∧ s'.collections = s.collections)
      (fun _ _ => False) s := by
  obtain ⟨db', hput, hrest⟩ := htakes nodeId hnode
  obtain ⟨-, htable⟩ := h.wlp_put.ok hput
  have hreturns : wp (MappingWrites.code.put name rowid nodeId) (fun _ db₁ => db₁ = db')
      (fun _ _ => False) s.db := (wp_of_ok hput).mpr rfl
  refine (wp_inDb hreturns).mono ?_ fun _ _ hno => hno.1
  rintro _ s' ⟨hdb', hs'⟩
  refine ⟨hdb' ▸ htable, hdb' ▸ hrest, ?_⟩
  rw [hs']

/-- Several puts, one after the other. -/
theorem MappingTable.wp_puts {pairs : UInt64 → Option ℕ} {ids : List (UInt64 × ℕ)} {bound : ℕ}
    (h : MappingTable s.db name pairs) (hids : ∀ e ∈ ids, e.2 < bound)
    (htakes : TakesPairs name bound (ids.map Prod.fst) s.db) :
    wp (ids.forM fun e => VectorDb.inDb (MappingWrites.code.put name e.1 e.2))
      (fun _ s' => MappingTable s'.db name (putPairs pairs ids) ∧ s'.collections = s.collections)
      (fun _ _ => False) s := by
  induction ids generalizing s pairs with
  | nil => exact ⟨h, rfl⟩
  | cons e ids ih =>
      rw [List.forall_mem_cons] at hids
      refine wp_bind.mpr ((h.wp_put hids.1 htakes).mono ?_ fun _ _ => id)
      rintro _ s₁ ⟨htable, hrest, hcollections₁⟩
      refine (ih htable hids.2 hrest).post ?_
      rintro _ s' ⟨hs', hcollections⟩
      exact ⟨hs', hcollections.trans hcollections₁⟩

/-- A deletion that goes through. -/
theorem MappingTable.wp_remove {pairs : UInt64 → Option ℕ} {next : Db → Prop}
    (h : MappingTable s.db name pairs) (hdrops : Drops name rowid s.db next) :
    wp (VectorDb.inDb (MappingWrites.code.remove name rowid))
      (fun _ s' => MappingTable s'.db name (Function.update pairs rowid none) ∧ next s'.db ∧
        s'.collections = s.collections)
      (fun _ _ => False) s := by
  obtain ⟨reply, db', hdelete, hnext⟩ := hdrops
  have htable := h.wlp_remove.ok hdelete
  have hremove : MappingWrites.code.remove name rowid s.db = .ok () db' := by
    change ignoring ((RowCall.delete rowid).perform .code name) s.db = _
    rw [ignoring, hdelete]
  have hreturns : wp (MappingWrites.code.remove name rowid) (fun _ db₁ => db₁ = db')
      (fun _ _ => False) s.db := (wp_of_ok hremove).mpr rfl
  refine (wp_inDb hreturns).mono ?_ fun _ _ hno => hno.1
  rintro _ s' ⟨hdb', hs'⟩
  refine ⟨hdb' ▸ htable, hdb' ▸ hnext, ?_⟩
  rw [hs']

end

/-! ## Whole calls -/

/-- **No part of the call fails after another one has changed something.** -/
def VectorDbCall.Whole [Crc32Fast] (table collection : String) (s : VectorDb)
    (c : VectorCollection) : VectorDbCall → Prop
  | .insert rowid vector _ => (∃ row, s.db.get? table rowid = .ok (some row)) →
      c.Accepts rowid vector → TakesPairs (vectorMappingTable table collection)
        (c.vecfile.header.nodeCount + 1) [rowid] s.db
  | .insertBatch entries =>
      (∃ e rest, entries = e :: rest ∧ ¬ c.Accepts e.1 e.2.1) ∨ c.AcceptsAll entries ∧
        TakesPairs (vectorMappingTable table collection)
          (c.vecfile.header.nodeCount + entries.length) (entries.map Prod.fst) s.db
  | .update rowid vector _ => rowid ∈ c.rowidToNode →
      vector.length = c.vecfile.header.dimensions ∧
        Drops (vectorMappingTable table collection) rowid s.db
          (TakesPairs (vectorMappingTable table collection) (c.vecfile.header.nodeCount + 1)
            [rowid])
  | .delete rowid => rowid ∈ c.rowidToNode →
      Drops (vectorMappingTable table collection) rowid s.db fun _ => True

/-- The collection is open, and the internal table holds the pairs of its map. -/
structure VectorDb.Mapped [Crc32Fast] (s : VectorDb) (table collection : String)
    (c : VectorCollection) : Prop where
  found : s.collections.lookup (table, collection) = some c
  maps : MapsInv c
  pairs : MappingTable s.db (vectorMappingTable table collection) c.rowidToNode.lookup

/-- The maps of the collections are the same. -/
structure SameMaps (c c' : VectorCollection) : Prop where
  rowids : ∀ rowid, c'.rowidToNode.lookup rowid = c.rowidToNode.lookup rowid
  nodes : ∀ n, c'.nodeToRowid.lookup n = c.nodeToRowid.lookup n

section

variable [Crc32Fast]

/-! ## The calls -/

/-- The call returns an error or a value, and the table still holds the pairs of the map. -/
def KeepsMapped (table collection : String) (x : StateResult VectorDb Unit) (s : VectorDb) : Prop :=
  wp x (fun _ s' => ∃ c', s'.Mapped table collection c')
    (fun e s' => ∀ error, e = .error error → ∃ c', s'.Mapped table collection c') s

/-- A collection that has refused a call is as it was. -/
theorem VectorDb.Mapped.refused (h : s.Mapped table collection c)
    (hfound : s'.collections.lookup (table, collection) = some c) (hdb : s'.db = s.db) :
    s'.Mapped table collection c :=
  ⟨hfound, h.maps, hdb ▸ h.pairs⟩

/-- The last part of a call: the pair of the new node is put. -/
theorem wp_putNode {pairs : UInt64 → Option ℕ} {bound : ℕ}
    (hfound : s.collections.lookup (table, collection) = some c) (hmaps : MapsInv c)
    (htable : MappingTable s.db (vectorMappingTable table collection) pairs)
    (hrowids : c.rowidToNode.lookup = Function.update pairs rowid (some nodeId))
    (hcount : c.vecfile.header.nodeCount ≤ bound)
    (htakes : TakesPairs (vectorMappingTable table collection) bound [rowid] s.db) :
    KeepsMapped table collection
      (VectorDb.inDb (MappingWrites.code.put (vectorMappingTable table collection) rowid nodeId))
      s := by
  have hnode := hmaps.node_lt ((congrFun hrowids rowid).trans (Function.update_self _ _ _))
  refine (htable.wp_put (hnode.trans_le hcount) htakes).mono ?_ fun _ _ => False.elim
  rintro _ s' ⟨htable', -, hcollections⟩
  refine ⟨c, ?_, hmaps, ?_⟩
  · rw [hcollections]
    exact hfound
  · rw [hrowids]
    exact htable'

/-- An insertion keeps the table equal to the map. -/
theorem wp_vectorInsert (h : s.Mapped table collection c)
    (hwhole : (VectorDbCall.insert rowid vector layer).Whole table collection s c) :
    KeepsMapped table collection
      (VectorDb.vectorInsert .code distanceFn order table collection rowid vector layer) s := by
  unfold VectorDb.vectorInsert
  refine wp_get_bind.mpr ?_
  cases hrow : s.db.get? table rowid with
  | error e => exact fun _ _ => ⟨c, h⟩
  | ok row =>
      cases row with
      | none => exact fun _ _ => ⟨c, h⟩
      | some row =>
          rw [wp_bind, wp_lift_ok rfl]
          refine wp_ite (fun hno => nomatch hno) fun _ => ?_
          refine wp_bind.mpr ((wp_withCollection h.found
            (VectorCollection.wp_insert h.maps)).mono ?_ ?_)
          · rintro v s₁ ⟨c₁, ⟨haccepts, hmaps₁, hrowids₁, -, hcount₁⟩, hfound₁, hdb₁⟩
            refine wp_putNode hfound₁ hmaps₁ (hdb₁ ▸ h.pairs) ?_ hcount₁ ?_
            · rw [hrowids₁, AList.lookup_insert_eq_update]
            · rw [hdb₁]
              exact hwhole ⟨row, hrow⟩ haccepts
          · rintro e s₁ ⟨c₁, hrefused, hfound₁, hdb₁⟩ error heq
            obtain ⟨-, rfl⟩ := hrefused error heq
            exact ⟨c₁, h.refused hfound₁ hdb₁⟩

/-- A batch that is refused at once, or goes through, keeps the table equal to the map. -/
theorem wp_vectorInsertBatch {entries : List (UInt64 × List UInt32 × ℕ)}
    (h : s.Mapped table collection c)
    (hwhole : (VectorDbCall.insertBatch entries).Whole table collection s c) :
    KeepsMapped table collection
      (VectorDb.vectorInsertBatch .code distanceFn order table collection entries) s := by
  unfold VectorDb.vectorInsertBatch
  rcases hwhole with ⟨⟨rowid, vector, layer⟩, rest, rfl, hrefused⟩ | ⟨haccepts, htakes⟩
  · refine wp_bind.mpr ((wp_withCollection h.found
      (wp_insertEntries_refused h.maps hrefused)).mono ?_ ?_)
    · rintro _ s₁ ⟨_, hno, -⟩
      exact hno.elim
    · rintro e s₁ ⟨c₁, hsame, hfound₁, hdb₁⟩ error heq
      obtain rfl := hsame error heq
      exact ⟨c₁, h.refused hfound₁ hdb₁⟩
  · refine wp_bind.mpr ((wp_withCollection h.found (wp_insertEntries h.maps haccepts)).mono ?_ ?_)
    · rintro ids s₁ ⟨c₁, ⟨hids, hmaps₁, hlt, hrowids₁⟩, hfound₁, hdb₁⟩
      rw [← hids, ← hdb₁] at htakes
      have htable₁ : MappingTable s₁.db (vectorMappingTable table collection)
        c.rowidToNode.lookup := hdb₁ ▸ h.pairs
      refine (htable₁.wp_puts hlt htakes).mono ?_ fun _ _ => False.elim
      rintro _ s' ⟨htable', hcollections⟩
      refine ⟨c₁, ?_, hmaps₁, ?_⟩
      · rw [hcollections]
        exact hfound₁
      · rw [hrowids₁]
        exact htable'
    · rintro e s₁ ⟨c₁, hnot, -⟩ error heq
      exact absurd heq (hnot error)

/-- An update with a vector of the right length keeps the table equal to the map. -/
theorem wp_vectorUpdate (h : s.Mapped table collection c)
    (hwhole : (VectorDbCall.update rowid vector layer).Whole table collection s c) :
    KeepsMapped table collection
      (VectorDb.vectorUpdate .code distanceFn order table collection rowid vector layer) s := by
  unfold VectorDb.vectorUpdate
  refine wp_bind.mpr ((wp_withCollection h.found
    (wp_update h.maps fun hmem => (hwhole hmem).1)).mono ?_ ?_)
  · rintro v s₁ ⟨c₁, ⟨hmem, hmaps₁, hrowids₁, hcount₁⟩, hfound₁, hdb₁⟩
    have htable₁ : MappingTable s₁.db (vectorMappingTable table collection) c.rowidToNode.lookup :=
      hdb₁ ▸ h.pairs
    have hdrops := (hwhole hmem).2
    rw [← hdb₁] at hdrops
    refine wp_bind.mpr ((htable₁.wp_remove hdrops).mono ?_ fun _ _ => False.elim)
    rintro _ s₂ ⟨htable₂, htakes, hcollections⟩
    refine wp_putNode ?_ hmaps₁ htable₂ ?_ hcount₁ htakes
    · rw [hcollections]
      exact hfound₁
    · rw [hrowids₁, Function.update_idem]
  · rintro e s₁ ⟨c₁, hsame, hfound₁, hdb₁⟩ error heq
    obtain rfl := hsame error heq
    exact ⟨c₁, h.refused hfound₁ hdb₁⟩

/-- A deletion keeps the table equal to the map. -/
theorem wp_vectorDelete (h : s.Mapped table collection c)
    (hwhole : (VectorDbCall.delete rowid).Whole table collection s c) :
    KeepsMapped table collection (VectorDb.vectorDelete .code table collection rowid) s := by
  unfold VectorDb.vectorDelete
  refine wp_bind.mpr ((wp_withCollection h.found (VectorCollection.wp_delete h.maps)).mono ?_ ?_)
  · rintro _ s₁ ⟨c₁, ⟨hmem, hmaps₁, hrowids₁, -⟩, hfound₁, hdb₁⟩
    have htable₁ : MappingTable s₁.db (vectorMappingTable table collection) c.rowidToNode.lookup :=
      hdb₁ ▸ h.pairs
    have hdrops := hwhole hmem
    rw [← hdb₁] at hdrops
    refine (htable₁.wp_remove hdrops).mono ?_ fun _ _ => False.elim
    rintro _ s' ⟨htable', -, hcollections⟩
    refine ⟨c₁, ?_, hmaps₁, ?_⟩
    · rw [hcollections]
      exact hfound₁
    · rw [hrowids₁, AList.lookup_erase_eq_update]
      exact htable'
  · rintro e s₁ ⟨c₁, hrefused, hfound₁, hdb₁⟩ error heq
    obtain ⟨-, rfl⟩ := hrefused error heq
    exact ⟨c₁, h.refused hfound₁ hdb₁⟩

/-- **A call that is whole keeps the table equal to the map**, whether it returns a value or an
error. -/
theorem VectorDbCall.wp_perform {call : VectorDbCall} (h : s.Mapped table collection c)
    (hwhole : call.Whole table collection s c) :
    KeepsMapped table collection (call.perform .code distanceFn order table collection) s := by
  cases call with
  | insert rowid vector layer => exact wp_vectorInsert h hwhole
  | insertBatch entries => exact wp_vectorInsertBatch h hwhole
  | update rowid vector layer => exact wp_vectorUpdate h hwhole
  | delete rowid => exact wp_vectorDelete h hwhole

/-! ## Runs -/

variable (distanceFn order table collection) in
/-- A run of calls that return, each of which meets the condition. -/
inductive VectorDbRun (Fits : VectorDb → VectorDbCall → Prop) (s₀ : VectorDb) : VectorDb → Prop
  | start : VectorDbRun Fits s₀ s₀
  | step {s s' : VectorDb} (call : VectorDbCall) : VectorDbRun Fits s₀ s → Fits s call →
      ReturnsTo (call.perform .code distanceFn order table collection) s s' →
        VectorDbRun Fits s₀ s'

/-- The call is whole for the collection that is open. -/
def WholeIn (table collection : String) (s : VectorDb) (call : VectorDbCall) : Prop :=
  ∀ c, s.collections.lookup (table, collection) = some c → call.Whole table collection s c

/-- **In a run of whole calls the table holds the pairs of the map.** -/
theorem VectorDbRun.mapped {s₀ : VectorDb} {c₀ : VectorCollection}
    (h : VectorDbRun distanceFn order table collection (WholeIn table collection) s₀ s)
    (hs₀ : s₀.Mapped table collection c₀) : ∃ c, s.Mapped table collection c := by
  induction h with
  | start => exact ⟨c₀, hs₀⟩
  | step call _ hwhole hreturns ih =>
      obtain ⟨c, hs⟩ := ih
      rcases hreturns.spec (VectorDbCall.wp_perform hs (hwhole c hs.found)) with
        ⟨-, -, hs'⟩ | ⟨e, -, hs'⟩
      · exact hs'
      · exact hs' e rfl

omit [Crc32Fast] in
theorem VectorCollection.rowidToNode_create {options : VectorCollectionOptions}
    {cipher : Option Aes256Gcm} {nonces : ℕ → Nonce}
    (h : VectorCollection.create options cipher nonces = .ok c) : c.rowidToNode = ∅ := by
  unfold VectorCollection.create at h
  split at h
  · cases h
  · split at h
    · cases h
    · cases h
      rfl

/-- A new collection has an empty map and an empty table. -/
theorem createVectorCollection_mapped {options : VectorCollectionOptions}
    {cipher : Option Aes256Gcm} {nonces : ℕ → Nonce} {s₀ : VectorDb}
    (hreach : Reaches Storable False s.db)
    (hcreate : VectorDb.createVectorCollection table collection options cipher nonces s =
      .ok () s₀) : ∃ c₀, s₀.Mapped table collection c₀ := by
  obtain ⟨Ms, hinv⟩ := hreach.inv fun _ _ => id
  have hspec : wlp (VectorDb.createVectorCollection table collection options cipher nonces)
      (fun _ s₀ => ∃ c₀, s₀.Mapped table collection c₀) s := by
    unfold VectorDb.createVectorCollection
    refine wlp_get_bind.mpr (wlp_lift_bind fun _ _ => wlp_ite (fun _ => wlp_throw) fun _ =>
      wlp_lift_bind fun c hc => ?_)
    have htable := @MappingTable.wlp_create _ s.db (vectorMappingTable table collection) Ms hinv
    change wlp (VectorDb.inDb _) _ (⟨s.db, s.collections.insert (table, collection) c⟩ : VectorDb)
    refine wp.mono (wp_inDb htable) ?_ fun _ _ _ => trivial
    rintro _ s₁ ⟨hs₁, heq⟩
    refine ⟨c, ?_, (VectorCollection.create_inv hc).maps, ?_⟩
    · rw [heq]
      exact AList.lookup_insert _
    · have hempty : c.rowidToNode.lookup = fun _ => none := by
        rw [VectorCollection.rowidToNode_create hc]
        exact funext AList.lookup_empty
      rw [hempty]
      exact hs₁
  exact hspec.ok hcreate

/-! ## Reopening -/

omit [Crc32Fast] in
/-- The maps are rebuilt from the pairs. -/
theorem rebuildMappings_same {read : List (UInt64 × ℕ)} (hc : MapsInv c)
    (hread : ∀ rowid n, (rowid, n) ∈ read ↔ c.rowidToNode.lookup rowid = some n)
    (opened : VectorCollection) : SameMaps c (opened.rebuildMappings read) := by
  have hrowids : (opened.rebuildMappings read).rowidToNode.lookup = c.rowidToNode.lookup :=
    AList.lookup_foldl_insert_empty hread
  have hswap : (opened.rebuildMappings read).nodeToRowid =
      (read.map Prod.swap).foldl (fun map e => map.insert e.1 e.2) ∅ := by
    rw [List.foldl_map]
    rfl
  have hnodes : (opened.rebuildMappings read).nodeToRowid.lookup = c.nodeToRowid.lookup := by
    rw [hswap]
    refine AList.lookup_foldl_insert_empty fun n rowid => ?_
    rw [← hc.inverse, ← hread, List.mem_map]
    constructor
    · rintro ⟨e, he, heq⟩
      obtain ⟨rfl, rfl⟩ := Prod.mk.inj heq
      exact he
    · intro hmem
      exact ⟨(rowid, n), hmem, rfl⟩
  exact ⟨congrFun hrowids, congrFun hnodes⟩

/-! ## The property -/

/-- **The rows of the internal table are the pairs of the map**, and bring back the same maps. -/
def VectorDb.FollowsMap (s : VectorDb) (table collection : String) : Prop :=
  ∃ c read, s.collections.lookup (table, collection) = some c ∧
    s.db.mappings (vectorMappingTable table collection) = .ok read ∧ (read.map Prod.fst).Nodup ∧
    (∀ rowid n, (rowid, n) ∈ read ↔ c.rowidToNode.lookup rowid = some n) ∧
    ∀ opened : VectorCollection, SameMaps c (opened.rebuildMappings read)

/-- A database whose internal table has the same rows is opened with the same maps. -/
def VectorDb.ReopensSame (s : VectorDb) (table collection : String) : Prop :=
  ∀ (db : Db) (openFile : String → String → Option (Result VectorCollection))
    (opened : VectorCollection) (collections : AList fun _ : String × String => VectorCollection),
    vectorMappingTable table collection ∈ db.tables →
    db.mappings (vectorMappingTable table collection) =
      s.db.mappings (vectorMappingTable table collection) →
    openFile table collection = some (.ok opened) →
      db.reopenVectorCollections openFile = .ok collections →
        ∃ c c', s.collections.lookup (table, collection) = some c ∧
          collections.lookup (table, collection) = some c' ∧ c'.vecfile = opened.vecfile ∧
          SameMaps c c'

theorem VectorDb.Mapped.follows (h : s.Mapped table collection c) :
    s.FollowsMap table collection := by
  obtain ⟨read, hmappings, hnodup, hread⟩ := h.pairs.mappings
    (fun rowid v hv => h.maps.lt_noLimit hv) fun rowid rowid' v hv hv' => by
      rw [h.maps.inverse] at hv hv'
      exact Option.some.inj (hv.symm.trans hv')
  exact ⟨c, read, h.found, hmappings, hnodup, hread, rebuildMappings_same h.maps hread⟩

/-- A collection that is found again under its name has the same maps. -/
theorem VectorDb.FollowsMap.reopens (h : s.FollowsMap table collection)
    (hparse : parseVectorMappingTable (vectorMappingTable table collection) =
      some (table, collection)) : s.ReopensSame table collection := by
  obtain ⟨c, read, hfound, hmappings, -, -, hsame⟩ := h
  intro db openFile opened collections hmem hrows hopen hreopen
  obtain ⟨pairs, hpairs, hlookup⟩ :=
    foundAgain_of_parse hparse db openFile opened collections hmem hopen hreopen
  obtain rfl := Except.ok.inj ((hpairs.symm.trans hrows).trans hmappings)
  exact ⟨c, _, hfound, hlookup, rfl, hsame opened⟩

/-- **In every run of whole calls the internal table follows the map**, and the collection is
opened again with it when its name is parsed back. -/
theorem VectorDbRun.mapping_follows {options : VectorCollectionOptions}
    {cipher : Option Aes256Gcm} {nonces : ℕ → Nonce} {s₀ : VectorDb}
    (hreach : Reaches Storable False s.db)
    (hcreate : VectorDb.createVectorCollection table collection options cipher nonces s =
      .ok () s₀)
    (hrun : VectorDbRun distanceFn order table collection (WholeIn table collection) s₀ s') :
    s'.FollowsMap table collection ∧
      (parseVectorMappingTable (vectorMappingTable table collection) = some (table, collection) →
        s'.ReopensSame table collection) := by
  obtain ⟨c₀, hs₀⟩ := createVectorCollection_mapped hreach hcreate
  obtain ⟨c, hs'⟩ := hrun.mapped hs₀
  exact ⟨hs'.follows, hs'.follows.reopens⟩

end

/-! ## A batch that stops -/

/-- The collection of the examples, in a database with one table. -/
def createVectors [Crc32Fast] : StateResult VectorDb Unit :=
  VectorDb.createVectorCollection "t" "v" ⟨1, .euclidean, 16, 10⟩ none VectorWal.zeroNonces

/-- The state after the collection was created. -/
def vectorsDb [Crc32Fast] : VectorDb :=
  stateAfter createVectors ⟨stateAfter (createFlags.perform .code) newDb, ∅⟩

/-- The calls of the examples. -/
def performVectors [Crc32Fast] (call : VectorDbCall) : StateResult VectorDb Unit :=
  call.perform .code noDistance .inOrder "t" "v"

/-- The map has a pair for the row id, and the table has none. -/
def losesPair [Crc32Fast] (s : VectorDb) (rowid : UInt64) : Bool :=
  match s.collections.lookup ("t", "v"), s.db.mappings (vectorMappingTable "t" "v") with
  | some c, .ok read => (c.rowidToNode.lookup rowid).isSome && read.all fun e => e.1 ≠ rowid
  | _, _ => false

theorem VectorDb.FollowsMap.not_losesPair [Crc32Fast] {s : VectorDb} {rowid : UInt64}
    (h : s.FollowsMap "t" "v") : losesPair s rowid = false := by
  obtain ⟨c, read, hfound, hmappings, -, hread, -⟩ := h
  unfold losesPair
  rw [hfound, hmappings]
  dsimp only
  cases hlookup : c.rowidToNode.lookup rowid with
  | none => rfl
  | some n =>
      have hmem := (hread rowid n).mpr hlookup
      rw [Option.isSome_some, Bool.true_and, List.all_eq_false]
      exact ⟨_, hmem, by simp⟩

/-- The call returns an error. -/
def returnsError {σ α : Type} (x : StateResult σ α) (s : σ) : Bool :=
  match x s with
  | .error (.error _) _ => true
  | _ => false

theorem returnsTo_of_error {σ α : Type} {x : StateResult σ α} {s : σ}
    (h : returnsError x s = true) : ReturnsTo x s (stateAfter x s) := by
  unfold returnsError at h
  unfold stateAfter
  cases hx : x s with
  | ok a s' =>
      rw [hx] at h
      cases h
  | error e s' =>
      cases e with
      | error error => exact Or.inr ⟨error, hx⟩
      | panic =>
          rw [hx] at h
          cases h
      | overflow =>
          rw [hx] at h
          cases h
      | unspecified =>
          rw [hx] at h
          cases h

/-- The database with one table is reached, and the collection is created. -/
theorem vectorsDb_created : letI := crc32Ieee
    Reaches Storable False (stateAfter (createFlags.perform .code) newDb) ∧
      createVectors ⟨stateAfter (createFlags.perform .code) newDb, ∅⟩ = .ok () vectorsDb := by
  let := crc32Ieee
  obtain ⟨reply, hcreate⟩ := createFlags_returns
  have hstep : DbStep Storable False newDb (stateAfter (createFlags.perform .code) newDb) :=
    @DbStep.returned _ Storable False newDb createFlags reply _ (fun _ => trivial) hcreate
  obtain ⟨⟨⟩, hvectors⟩ := exists_of_attempt (x := createVectors)
    (s := ⟨stateAfter (createFlags.perform .code) newDb, ∅⟩) (by decide +kernel)
  exact ⟨⟨newDb, open_new, .single hstep⟩, hvectors⟩

/-- One vector is in the collection. -/
def oneVector [Crc32Fast] : VectorDb :=
  stateAfter (performVectors (.insertBatch [(1, [0], 0)])) vectorsDb

/-- A batch with the row id of the vector was refused. -/
def refusedVector [Crc32Fast] : VectorDb :=
  stateAfter (performVectors (.insertBatch [(1, [5], 0), (2, [6], 0)])) oneVector

/-- The open collection of the state: its dimensions, the number of its nodes and its row ids. -/
def openVectors [Crc32Fast] (s : VectorDb) : Option (ℕ × ℕ × List UInt64) :=
  (s.collections.lookup ("t", "v")).map fun c =>
    (c.vecfile.header.dimensions, c.vecfile.header.nodeCount, c.rowidToNode.keys)

theorem openVectors_iff [Crc32Fast] {s : VectorDb} {c : VectorCollection} {dims count : ℕ}
    {keys : List UInt64} (h : openVectors s = some (dims, count, keys))
    (hc : s.collections.lookup ("t", "v") = some c) :
    c.vecfile.header.dimensions = dims ∧ c.vecfile.header.nodeCount = count ∧
      c.rowidToNode.keys = keys := by
  rw [openVectors, hc, Option.map_some, Option.some_inj, Prod.mk.injEq, Prod.mk.injEq] at h
  exact h

/-- A vector is inserted, a batch with its row id is refused, and the vector is deleted. -/
theorem VectorDbRun.mapping_follows_refused : letI := crc32Ieee
    returnsError (performVectors (.insertBatch [(1, [5], 0), (2, [6], 0)])) oneVector = true ∧
      (stateAfter (performVectors (.delete 1)) refusedVector).FollowsMap "t" "v" ∧
      (parseVectorMappingTable (vectorMappingTable "t" "v") = some ("t", "v") →
        (stateAfter (performVectors (.delete 1)) refusedVector).ReopensSame "t" "v") := by
  let := crc32Ieee
  obtain ⟨hreach, hcreate⟩ := vectorsDb_created
  obtain ⟨⟨⟩, hinsert⟩ := exists_of_attempt (x := performVectors (.insertBatch [(1, [0], 0)]))
    (s := vectorsDb) (by decide +kernel)
  obtain ⟨⟨⟩, hput⟩ := exists_of_attempt
    (x := MappingWrites.code.put (vectorMappingTable "t" "v") 1 0) (s := vectorsDb.db)
    (by decide +kernel)
  have herror : returnsError (performVectors (.insertBatch [(1, [5], 0), (2, [6], 0)]))
      oneVector = true := by decide +kernel
  obtain ⟨⟨⟩, hdelete⟩ := exists_of_attempt (x := performVectors (.delete 1))
    (s := refusedVector) (by decide +kernel)
  obtain ⟨reply, hdrop⟩ := exists_of_attempt
    (x := (RowCall.delete 1).perform .code (vectorMappingTable "t" "v")) (s := refusedVector.db)
    (by decide +kernel)
  have hnone : openVectors vectorsDb = some (1, 0, []) := by decide +kernel
  have hone : openVectors oneVector = some (1, 1, [1]) := by decide +kernel
  have hwhole : WholeIn "t" "v" vectorsDb (.insertBatch [(1, [0], 0)]) := by
    intro c hc
    obtain ⟨hdims, hcount, hkeys⟩ := openVectors_iff hnone hc
    refine Or.inr ⟨⟨?_, ?_⟩, ?_⟩
    · intro e he
      obtain rfl := List.mem_singleton.mp he
      refine ⟨hdims.symm, ?_⟩
      rw [AList.mem_keys, hkeys]
      exact List.not_mem_nil
    · exact List.nodup_singleton _
    · intro nodeId hnode
      rw [hcount] at hnode
      obtain rfl := Nat.lt_one_iff.mp hnode
      exact ⟨_, hput, trivial⟩
  -- the row id of the first entry has a vector
  have hrefused : WholeIn "t" "v" oneVector (.insertBatch [(1, [5], 0), (2, [6], 0)]) := by
    intro c hc
    obtain ⟨-, -, hkeys⟩ := openVectors_iff hone hc
    refine Or.inl ⟨_, _, rfl, fun haccepts => haccepts.2 ?_⟩
    rw [AList.mem_keys, hkeys]
    exact List.mem_singleton_self 1
  have hdropped : WholeIn "t" "v" refusedVector (.delete 1) := fun c hc _ =>
    ⟨reply, _, hdrop, trivial⟩
  exact ⟨herror, VectorDbRun.mapping_follows hreach hcreate
    (((VectorDbRun.start.step _ hwhole (.inl ⟨(), hinsert⟩)).step _ hrefused
      (returnsTo_of_error herror)).step _ hdropped (.inl ⟨(), hdelete⟩))⟩

/-- The second entry of the batch is refused: the first is in the map, and not in the table. -/
theorem not_mapping_follows_always : letI := crc32Ieee
    ¬ ∀ (distanceFn : DistanceMetric → List UInt32 → List UInt32 → UInt32) (order : HeapOrder)
      (table collection : String) (options : VectorCollectionOptions) (cipher : Option Aes256Gcm)
      (nonces : ℕ → Nonce) (s s₀ s' : VectorDb), Reaches Storable False s.db →
        VectorDb.createVectorCollection table collection options cipher nonces s = .ok () s₀ →
          VectorDbRun distanceFn order table collection (fun _ _ => True) s₀ s' →
            s'.FollowsMap table collection := by
  let := crc32Ieee
  intro h
  obtain ⟨hreach, hcreate⟩ := vectorsDb_created
  have herror : returnsError (performVectors (.insertBatch [(1, [0], 0), (2, [], 0)]))
      vectorsDb = true := by decide +kernel
  have hloses : losesPair (stateAfter (performVectors (.insertBatch [(1, [0], 0), (2, [], 0)]))
      vectorsDb) 1 = true := by decide +kernel
  have hfollows := h noDistance .inOrder "t" "v" _ none VectorWal.zeroNonces _ _ _ hreach hcreate
    (VectorDbRun.step (.insertBatch [(1, [0], 0), (2, [], 0)]) VectorDbRun.start trivial
      (returnsTo_of_error herror))
  exact absurd hloses (Bool.eq_false_iff.mp hfollows.not_losesPair)

end BoogyDb
