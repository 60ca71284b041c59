import BoogyDb.DbRuns
import BoogyDb.LogicalTable
import BoogyDb.VectorDb

/-!
# The internal table of a vector collection

The rows of the internal table have all the same length, so that a leaf of its tree can always
be split, and they do not look like overflow cells.  Hence the table takes what it is given:
an insertion that returns adds its pair, a deletion that returns removes it, and a query
returns the pairs that are there (`MappingTable`).
-/

namespace BoogyDb

open Bytes Wp WriteGuard FencedTree Ownership

section

variable [Crc32Fast]

/-! ## Row calls by id -/

section

variable {storable : UInt64 → List UInt8 → Prop} {keyed : Prop} {db : Db}
  {Ms : String → TableModel} {table : String} {id : UInt64} {data : RowData}

/-- The table is there before and after the call, with the same schema and these rows. -/
def Db.Rewrites (storable : UInt64 → List UInt8 → Prop) (keyed : Prop) (db db' : Db)
    (table : String) (rows : TableMeta → UInt64 → Option (List UInt8)) : Prop :=
  ∃ state state' Ms', db.tables.lookup table = some state ∧
    db'.tables.lookup table = some state' ∧ SameSchema state state' ∧
    DbInv storable keyed db' Ms' ∧ (Ms' table).rows = rows state

/-- A call on a table in place, from what it does to the rows. -/
theorem wlp_withTable_rewrites {α : Type} {x : StateResult Session α}
    {rows : TableMeta → UInt64 → Option (List UInt8)} {C : Prop} (h : DbInv storable keyed db Ms)
    (hx : ∀ state P, TableAt state.rootPage state.indexes (Ms table) db.file P →
      wlp x (fun _ s' => C ∧ ∃ M', M'.rows = rows state ∧
        RowStep storable (db.session state) s' P (Ms table) M') (db.session state)) :
    wlp (Db.withTable table x)
      (fun _ db' => C ∧ db.Rewrites storable keyed db' table rows) db := by
  refine (wlp_withTable (Q := fun _ s' M' => ∃ state, db.tables.lookup table = some state ∧
    C ∧ SameSchema state s'.state ∧ M'.rows = rows state) h fun state P hname _ hP =>
      (hx state P hP).post ?_).post ?_
  · rintro _ s' ⟨hC, M', hrows, hstep⟩
    exact ⟨M', ⟨state, hname, hC, hstep.schema, hrows⟩, hstep.tableStep⟩
  · rintro _ db' ⟨state, s', M', hname, -, ⟨state₁, hname₁, hC, hschema, hrows⟩, -, rfl, hinv⟩
    rw [hname] at hname₁
    obtain rfl := Option.some.inj hname₁
    refine ⟨hC, state, s'.state, _, hname, ?_, hschema, hinv, ?_⟩
    · exact AList.lookup_replace (Option.isSome_of_eq_some hname)
    · rw [Function.update_self]
      exact hrows

/-- A call in a transaction of its own, from what it does to the rows. -/
theorem wlp_inTransaction_rewrites {α : Type} {x : StateResult InTransaction α}
    {rows : TableMeta → UInt64 → Option (List UInt8)} {C : Prop}
    (hx : wlp x (fun _ s' => C ∧ ∃ state Ms', db.tables.lookup table = some state ∧ s'.db = db ∧
      (Ms' table).rows = rows state ∧ TxInv storable keyed s' Ms') db.beginAcid) :
    wlp (Db.inTransaction x)
      (fun _ db' => C ∧ db.Rewrites storable keyed db' table rows) db := by
  rw [wlp_iff]
  intro a db' hrun
  obtain ⟨s, s', hbody, hcommit, rfl⟩ := inTransaction_eq_ok hrun
  obtain ⟨hC, state, Ms', hname, hdb, hrows, htx⟩ := hx.ok hbody
  obtain ⟨hinv, hdb'⟩ := (wlp_txCommit htx).ok hcommit
  have hname' : s.db.tables.lookup table = some state := by
    rw [hdb]
    exact hname
  refine ⟨hC, state, s.tx.seen table state, Ms', hname, ?_, htx.seen_sameSchema hname', hinv, hrows⟩
  rw [hdb']
  change s.seenTables.lookup table = _
  rw [s.lookup_seenTables, hname']
  rfl

/-- **An insertion with an id** adds the encoded row, whose id was free. -/
theorem wlp_performInsertWithId (h : DbInv storable keyed db Ms)
    (hstore : ∀ id row, storable id row → Storable id row) :
    wlp ((RowCall.insertWithId id data).perform (.watched storable) table)
      (fun _ db' => (Ms table).rows id = none ∧ db.Rewrites storable keyed db' table
        fun state => Function.update (Ms table).rows id
          (some (encodeRow id (columnValues state data)))) db := by
  unfold RowCall.perform
  refine wlp_get_bind.mpr (wlp_ite (fun _ => ?_) fun _ => ?_)
  · refine wlp_inTransaction_rewrites ((wlp_replied
      (wlp_txInsertWithId h.beginAcid hstore)).post ?_)
    rintro _ s' ⟨_, -, state, Ms', hins⟩
    exact ⟨hins.fresh, state, Ms', hins.named, hins.moves.db, hins.rows, hins.inv⟩
  · refine wlp_withTable_rewrites h fun state P hP =>
      (wlp_replied (@wlp_insertWithId _ (db.session state) _ P id storable data hP hstore)).post ?_
    rintro _ s' ⟨_, -, row, rfl, -, hfree, -, M', hrows, hstep⟩
    exact ⟨hfree, M', hrows, hstep⟩

/-- **A deletion** removes the row with the id. -/
theorem wlp_performDelete (h : DbInv storable keyed db Ms) :
    wlp ((RowCall.delete id).perform (.watched storable) table)
      (fun _ db' => True ∧ db.Rewrites storable keyed db' table
        fun _ => Function.update (Ms table).rows id none) db := by
  unfold RowCall.perform
  refine wlp_get_bind.mpr (wlp_ite (fun _ => ?_) fun _ => ?_)
  · refine wlp_inTransaction_rewrites ((wlp_replied (wlp_txDelete h.beginAcid)).post ?_)
    rintro _ s' ⟨_, -, state, hname, -, hmoves, -, hcase⟩
    cases hid : (Ms table).rows id with
    | none =>
        rw [hid] at hcase
        have hsame : (Ms table).rows = Function.update (Ms table).rows id none :=
          (Function.update_eq_self_iff.mpr hid.symm).symm
        exact ⟨trivial, state, Ms, hname, hmoves.db, hsame, hcase⟩
    | some old =>
        rw [hid] at hcase
        obtain ⟨M', hrows, hinv⟩ := hcase
        refine ⟨trivial, state, _, hname, hmoves.db, ?_, hinv⟩
        rw [Function.update_self]
        exact hrows
  · refine wlp_withTable_rewrites h fun state P hP =>
      (wlp_replied (@wlp_delete _ (db.session state) _ P id storable hP h.clean)).post ?_
    rintro _ s' ⟨_, -, -, M', hrows, hstep⟩
    exact ⟨trivial, M', hrows, hstep⟩

end

/-! ## Tables without indexes -/

section

variable {w w' : TreeWriters} {db : Db} {table : String} {state : TableMeta} {id : UInt64}
  {data : RowData}

omit [Crc32Fast] in
theorem inGuard_congr {α : Type} {x x' : StateResult WriteGuard α} {s : Session}
    (h : x s.file = x' s.file) : inGuard x s = inGuard x' s := by
  unfold inGuard
  rw [h]

omit [Crc32Fast] in
theorem withTable_congr {α : Type} {x x' : StateResult Session α} {name : String}
    (h : ∀ state, db.tables.lookup name = some state → x (db.session state) = x' (db.session state)) :
    Db.withTable name x db = Db.withTable name x' db := by
  unfold Db.withTable
  cases hname : db.tables.lookup name with
  | none => rfl
  | some state =>
      have hx := h state hname
      unfold Db.session at hx
      dsimp only
      rw [hx]

/-- Without indexes, the part of an insertion under the guard depends on one insertion into the
tree. -/
theorem insertRow_unindexed {s : Session} {id : UInt64} {row : List UInt8}
    (hindexes : s.state.indexes = [])
    (hrow : w.insertRow s.state.rootPage id row s.file = w'.insertRow s.state.rootPage id row s.file) :
    Session.insertRow w id row s = Session.insertRow w' id row s := by
  unfold Session.insertRow
  refine bind_congr_at rfl ?_
  rintro _ _ ⟨⟩
  refine bind_congr_at ?_ fun root s₁ hroot => ?_
  · exact inGuard_congr hrow
  · refine bind_congr_at rfl fun _ s₂ hs₂ => bind_congr_at ?_ fun _ _ _ => rfl
    have hnone : s₂.state.indexes = [] := by
      cases hs₂
      unfold inGuard at hroot
      split at hroot
      · cases hroot
        exact hindexes
      · cases hroot
    show Session.indexUpdateLoop w _ _ _ [] s₂.state.indexes s₂ =
      Session.indexUpdateLoop w' _ _ _ [] s₂.state.indexes s₂
    rw [hnone]
    rfl

/-- A watched insertion, where it finds room, is the insertion. -/
theorem watched_insertRow_eq {storable : UInt64 → List UInt8 → Prop} {g : WriteGuard} {root : ℕ}
    {id : UInt64} {row : List UInt8} (hroom : InsertRoom g root id row) (hrow : storable id row) :
    (TreeWriters.watched storable).insertRow root id row g =
      TreeWriters.code.insertRow root id row g := if_pos ⟨hroom, hrow⟩

theorem insertWithId_unindexed {s : Session} (hindexes : s.state.indexes = [])
    (hrow : w.insertRow s.state.rootPage id (encodeRow id (columnValues s.state data)) s.file =
      w'.insertRow s.state.rootPage id (encodeRow id (columnValues s.state data)) s.file) :
    Session.insertWithId w id data s = Session.insertWithId w' id data s := by
  have hinsert : ∀ next : UInt64, Session.insertRow w id
        (encodeRow id (columnValues s.state data))
        { s with state := { s.state with nextRowid := next } } =
      Session.insertRow w' id (encodeRow id (columnValues s.state data))
        { s with state := { s.state with nextRowid := next } } := fun next =>
    @insertRow_unindexed _ w w' { s with state := { s.state with nextRowid := next } } _ _ hindexes
      hrow
  unfold Session.insertWithId
  refine bind_congr_at rfl ?_
  rintro _ _ ⟨⟩
  refine lift_bind_congr fun _ _ => ?_
  dsimp only
  split
  · rfl
  · refine lift_bind_congr fun _ _ => ?_
    split
    · refine lift_bind_congr fun next _ => bind_congr_at rfl ?_
      rintro _ _ ⟨⟩
      exact bind_congr_at (hinsert next) fun _ _ _ => rfl
    · exact bind_congr_at (hinsert s.state.nextRowid) fun _ _ _ => rfl

omit [Crc32Fast] in
theorem withGuard_congr {α : Type} {f f' : StateResult WriteGuard α} {s : InTransaction}
    (h : f s.guard = f' s.guard) : InTransaction.withGuard f s = InTransaction.withGuard f' s := by
  unfold InTransaction.withGuard
  rw [h]

theorem inTransaction_congr {α : Type} {x x' : StateResult InTransaction α}
    (h : x db.beginAcid = x' db.beginAcid) : Db.inTransaction x db = Db.inTransaction x' db := by
  have hall : (do let a ← x; InTransaction.commit; pure a) (⟨db, .new⟩ : InTransaction) =
      (do let a ← x'; InTransaction.commit; pure a) ⟨db, .new⟩ := bind_congr_at h fun _ _ _ => rfl
  unfold Db.inTransaction
  rw [hall]

/-- Inside a transaction of its own, the same. -/
theorem txInsertWithId_unindexed (hclean : db.file.writeState = ⟨∅, 0⟩)
    (hname : db.tables.lookup table = some state) (hindexes : state.indexes = [])
    (hrow : w.insertRow state.rootPage id (encodeRow id (columnValues state data)) db.file =
      w'.insertRow state.rootPage id (encodeRow id (columnValues state data)) db.file) :
    InTransaction.insertWithId w table id data db.beginAcid =
      InTransaction.insertWithId w' table id data db.beginAcid := by
  have hstate : InTransaction.tableState table db.beginAcid = .ok state db.beginAcid :=
    tableState_ok hname
  have hput : ∀ s : InTransaction, s.guard = db.file →
      InTransaction.withGuard (putRow w id (encodeRow id (columnValues state data))
          state.rootPage []) s =
        InTransaction.withGuard (putRow w' id (encodeRow id (columnValues state data))
          state.rootPage []) s := by
    intro s hguard
    have hwork : putRow w id (encodeRow id (columnValues state data)) state.rootPage [] s.guard =
        putRow w' id (encodeRow id (columnValues state data)) state.rootPage [] s.guard := by
      unfold putRow
      refine bind_congr_at ?_ fun _ _ _ => rfl
      rw [hguard]
      exact hrow
    exact withGuard_congr hwork
  unfold InTransaction.insertWithId
  rw [run_bind_ok hstate, run_bind_ok hstate]
  refine lift_bind_congr fun _ _ => ?_
  refine bind_congr_at rfl ?_
  rintro _ _ ⟨⟩
  unfold InTransaction.insertAs
  refine bind_congr_at rfl ?_
  rintro _ _ ⟨⟩
  dsimp only
  split
  · rfl
  · refine bind_congr_at rfl fun _ s₁ hs₁ => bind_congr_at ?_ fun _ _ _ => rfl
    have hguard : s₁.guard = db.file := by
      have hseen := (within_enforceUniqueIndexesAcid _).ok hs₁
      rw [hseen.guard_eq]
      exact guard_beginAcid hclean
    have hinfos : db.beginAcid.tx.compositeIndexInfo table state = [] := by
      unfold AcidTransaction.compositeIndexInfo
      rw [hindexes]
      rfl
    rw [hinfos]
    exact hput s₁ hguard

/-- **A call on a table without indexes depends on one insertion into its tree.** -/
theorem performInsertWithId_unindexed (hclean : db.file.writeState = ⟨∅, 0⟩)
    (hname : db.tables.lookup table = some state) (hindexes : state.indexes = [])
    (hrow : w.insertRow state.rootPage id (encodeRow id (columnValues state data)) db.file =
      w'.insertRow state.rootPage id (encodeRow id (columnValues state data)) db.file) :
    (RowCall.insertWithId id data).perform w table db =
      (RowCall.insertWithId id data).perform w' table db := by
  unfold RowCall.perform
  refine bind_congr_at rfl ?_
  rintro _ _ ⟨⟩
  split
  · have hbody : (RowCall.insertWithId id data).inTransaction w table db.beginAcid =
        (RowCall.insertWithId id data).inTransaction w' table db.beginAcid :=
      bind_congr_at (txInsertWithId_unindexed hclean hname hindexes hrow) fun _ _ _ => rfl
    exact inTransaction_congr hbody
  · refine withTable_congr fun state' hname' => ?_
    rw [hname] at hname'
    obtain rfl := Option.some.inj hname'
    exact bind_congr_at (@insertWithId_unindexed _ w w' id data (db.session state) hindexes hrow)
      fun _ _ _ => rfl

theorem delete_unindexed {s : Session} (hindexes : s.state.indexes = []) :
    Session.delete w id s = Session.delete w' id s := by
  unfold Session.delete
  refine bind_congr_at rfl ?_
  rintro _ _ ⟨⟩
  dsimp only
  rw [hindexes]
  rfl

/-- A deletion from a table without indexes writes no tree but its own. -/
theorem performDelete_unindexed (hname : db.tables.lookup table = some state)
    (hindexes : state.indexes = []) :
    (RowCall.delete id).perform w table db = (RowCall.delete id).perform w' table db := by
  unfold RowCall.perform
  refine bind_congr_at rfl ?_
  rintro _ _ ⟨⟩
  split
  · rfl
  · refine withTable_congr fun state' hname' => ?_
    rw [hname] at hname'
    obtain rfl := Option.some.inj hname'
    exact bind_congr_at (@delete_unindexed _ w w' id (db.session state) hindexes) fun _ _ _ => rfl

end

/-! ## Rows of one length -/

omit [Crc32Fast] in
theorem dataSize_uniform {rows : List (List UInt8)} {n : ℕ} (h : ∀ row ∈ rows, row.length = n) :
    dataSize rows = rows.length * n := by
  induction rows with
  | nil => exact (Nat.zero_mul n).symm
  | cons row rows ih =>
      rw [List.forall_mem_cons] at h
      rw [dataSize_cons, ih h.2, h.1, List.length_cons, Nat.succ_mul, Nat.add_comm]

/-- **A tree whose rows have all the same length, less than that of an overflow cell, has room for
one more.** -/
theorem insertRoom_uniform {g : WriteGuard} {root n : ℕ} {leaves : List (Leaf UInt64 StoredRow)}
    {branches : List ℕ} {rowid : UInt64} {row : List UInt8} (h : RowTree g root leaves branches)
    (hn : n < inlineDataLen) (hrows : ∀ e ∈ contents leaves, e.2.row.length = n)
    (hrow : row.length = n) : InsertRoom g root rowid row := by
  intro pageNo page pos hreached hfind hsize
  obtain ⟨pre, l, post, rfl, -, -, -, hreached'⟩ := h.tree.descend_key rowid
    "B+ tree depth exceeds maximum in insert_recursive"
  obtain ⟨-, rfl⟩ := Prod.mk.inj (Except.ok.inj (hreached.symm.trans hreached'))
  have hmem : l ∈ pre ++ l :: post := List.mem_append_right _ List.mem_cons_self
  have hfits : Fits (rowsOf cellOf l) := h.tree.chained.leafAt.fits
  obtain ⟨hpos, -⟩ := findInsertionPoint_bounds hfits hfind
  -- the cells are the rows, and none is longer than the others
  have hcells : ∀ cell ∈ rowsOf cellOf l, cell.length = n := by
    intro cell hcell
    obtain ⟨e, he, rfl⟩ := List.mem_map.mp hcell
    have hlen := hrows e (mem_contents hmem he)
    have hkept := (h.kept e (mem_contents hmem he)).kept
    obtain ⟨id, row', cell, chain⟩ := e
    dsimp only at hkept hlen
    cases hkept with
    | inline _ => exact hlen
    | overflow _ _ _ hlong => omega
  have hall : ∀ r ∈ (rowsOf cellOf l).insertIdx pos row, r.length = n := by
    intro r hr
    rcases (List.mem_insertIdx hpos).mp hr with rfl | hr
    · exact hrow
    · exact hcells r hr
  have hcount : ((rowsOf cellOf l).insertIdx pos row).length = (rowsOf cellOf l).length + 1 :=
    List.length_insertIdx_of_le_length hpos row
  have hused : usedSize (rowsOf cellOf l) ≤ pageSize - checksumSize := hfits
  have hfull : ¬ Fits ((rowsOf cellOf l).insertIdx pos row) := by
    rw [← @neededSize_leafPage _ _ _ _ _ _ hfits hpos]
    exact Nat.not_le.mpr hsize
  have hshort : row.length ≤ maxSingleRow := by
    rw [hrow]
    exact hn.le.trans (by decide)
  -- at least two rows are there, and each half has no more than these
  have hhalf : ∀ rows' : List (List UInt8), (∀ r ∈ rows', r.length = n) →
      rows'.length ≤ (rowsOf cellOf l).length → Fits rows' := by
    intro rows' hrows' hle
    have hmul := Nat.mul_le_mul_right n hle
    unfold Fits usedSize at *
    rw [dataSize_uniform hrows']
    rw [dataSize_uniform hcells] at hused
    omega
  have htwo : 0 < (rowsOf cellOf l).length := by
    by_contra hzero
    have hone : ((rowsOf cellOf l).insertIdx pos row).length = 1 := by omega
    refine hfull ?_
    unfold Fits usedSize
    rw [dataSize_uniform hall, hone, Nat.one_mul]
    have hle : pageHeaderSize + 1 * 2 + inlineDataLen ≤ pageSize - checksumSize := by decide
    omega
  rw [if_pos hshort, splitRoom_leafPage hfits hpos]
  refine ⟨hhalf _ (fun r hr => hall r (List.mem_of_mem_take hr)) ?_,
    hhalf _ (fun r hr => hall r (List.mem_of_mem_drop hr)) ?_⟩
  · unfold leftHalf
    rw [List.length_take]
    omega
  · unfold rightHalf
    rw [List.length_drop, hcount]
    omega

/-! ## The internal table -/

/-- The row of a pair. -/
def mappingRow (rowid : UInt64) (nodeId : ℕ) : List UInt8 :=
  encodeRow rowid [(0, .integer (Int64.ofNat nodeId))]

/-- The internal table holds these pairs. -/
structure MappingTable (db : Db) (name : String) (pairs : UInt64 → Option ℕ) : Prop where
  table : ∃ state tableId root Ms, db.tables.lookup name = some state ∧
    SameSchema (TableMeta.new name tableId mappingColumns root) state ∧ DbInv Storable False db Ms ∧
    ∀ id, (Ms name).rows id = (pairs id).map (mappingRow id)

omit [Crc32Fast] in
theorem wlp_discard {σ α : Type} {x : StateResult σ α} {Q : σ → Prop} {s : σ}
    (h : wlp x (fun _ => Q) s) : wlp (discard x) (fun _ => Q) s := by
  change wlp (x >>= fun _ => pure () : StateResult σ Unit) (fun _ => Q) s
  exact wp.bind h fun _ _ hQ => hQ

section

variable {db db' : Db} {name : String} {pairs : UInt64 → Option ℕ} {rowid : UInt64} {nodeId : ℕ}
  {state : TableMeta} {tableId : UInt32} {root : ℕ}

omit [Crc32Fast] in
theorem mappingRow_eq (rowid : UInt64) (nodeId : ℕ) : mappingRow rowid nodeId =
    leBytes 8 rowid.toNat ++ (leBytes 2 1 ++ (leBytes 4 0 ++
      encodeValue (.integer (Int64.ofNat nodeId)))) := by
  rw [mappingRow, encodeRow_eq]
  simp [sortColumns, directory, columnData, leBytes]

omit [Crc32Fast] in
theorem length_mappingRow (rowid : UInt64) (nodeId : ℕ) :
    (mappingRow rowid nodeId).length = 23 := by
  rw [mappingRow_eq]
  simp [encodeValue]

omit [Crc32Fast] in
theorem storable_mappingRow (rowid : UInt64) (nodeId : ℕ) :
    Storable rowid (mappingRow rowid nodeId) := by
  have hlen := length_mappingRow rowid nodeId
  refine ⟨LogicalTable.extractId_encodeRow _ _, ?_, fun _ => ?_⟩
  · rw [hlen]
    decide
  · rw [hasOverflow, hlen]
    rw [mappingRow_eq]
    rfl

omit [Crc32Fast] in
theorem columnValues_mapping
    (h : SameSchema (TableMeta.new name tableId mappingColumns root) state) :
    columnValues state (mappingData nodeId) = [(0, .integer (Int64.ofNat nodeId))] := by
  unfold columnValues mappingData TableMeta.colId
  rw [h.colNameToId]
  rfl

omit [Crc32Fast] in
theorem indexes_mapping (h : SameSchema (TableMeta.new name tableId mappingColumns root) state) :
    state.indexes = [] := by
  have hshapes : state.indexes.map IndexMeta.shape = [] := h.indexes
  exact List.map_eq_nil_iff.mp hshapes

/-- The table as it is found. -/
theorem MappingTable.rowTree (h : MappingTable db name pairs) :
    ∃ state tableId root Ms leaves branches, db.tables.lookup name = some state ∧
      SameSchema (TableMeta.new name tableId mappingColumns root) state ∧
      DbInv Storable False db Ms ∧ RowTree db.file state.rootPage leaves branches ∧
      Represents (rowsIn leaves) (Ms name).rows ∧
      ∀ id, (Ms name).rows id = (pairs id).map (mappingRow id) := by
  obtain ⟨state, tableId, root, Ms, hname, hschema, hinv, hrows⟩ := h.table
  obtain ⟨started, hok⟩ := hinv.ok
  obtain ⟨-, P, hP, -⟩ := hok.table hname
  obtain ⟨Q, hQ, -⟩ := hP.rowsTree
  obtain ⟨leaves, branches, htree, hrep⟩ := hQ.holds
  exact ⟨state, tableId, root, Ms, leaves, branches, hname, hschema, hinv, htree, hrep, hrows⟩

/-- **A put that returns** adds its pair, whose row id was free. -/
theorem MappingTable.wlp_put (h : MappingTable db name pairs) :
    wlp (MappingWrites.code.put name rowid nodeId) (fun _ db' => pairs rowid = none ∧
      MappingTable db' name (Function.update pairs rowid (some nodeId))) db := by
  obtain ⟨state, tableId, root, Ms, leaves, branches, hname, hschema, hinv, htree, hrep, hrows⟩ :=
    h.rowTree
  have hvalues : columnValues state (mappingData nodeId) = [(0, .integer (Int64.ofNat nodeId))] :=
    columnValues_mapping hschema
  -- the rows of the table have all one length
  have hroom : InsertRoom db.file state.rootPage rowid (mappingRow rowid nodeId) := by
    refine insertRoom_uniform htree (n := 23) (by decide) (fun e he => ?_) (length_mappingRow _ _)
    have hrow := (hrep.mem_iff _ _).mp (List.mem_map_of_mem he)
    rw [hrows] at hrow
    obtain ⟨v, -, hv⟩ := Option.map_eq_some_iff.mp hrow
    rw [← hv]
    exact length_mappingRow _ _
  have hsame : (RowCall.insertWithId rowid (mappingData nodeId)).perform .code name db =
      (RowCall.insertWithId rowid (mappingData nodeId)).perform (.watched Storable) name db := by
    refine performInsertWithId_unindexed hinv.clean hname (indexes_mapping hschema) ?_
    rw [hvalues]
    exact (watched_insertRow_eq hroom (storable_mappingRow _ _)).symm
  have hinsert := @wlp_performInsertWithId _ Storable False db Ms name rowid (mappingData nodeId)
    hinv fun _ _ hrow => hrow
  refine (wlp_discard (wlp_iff.mpr fun a db' hrun => ?_))
  rw [hsame] at hrun
  obtain ⟨hfree, state₀, state', Ms', hname₀, hname', hschema', hinv', hrows'⟩ := hinsert.ok hrun
  rw [hname] at hname₀
  obtain rfl := Option.some.inj hname₀
  refine ⟨?_, state', tableId, root, Ms', hname', hschema.trans hschema', hinv', fun id => ?_⟩
  · rw [hrows] at hfree
    exact Option.map_eq_none_iff.mp hfree
  · rw [hrows']
    dsimp only
    rw [hvalues]
    by_cases hid : id = rowid
    · subst hid
      rw [Function.update_self, Function.update_self]
      rfl
    · rw [Function.update_of_ne hid, Function.update_of_ne hid, hrows]

/-- **A removal that returns** takes the pair of its row id out. -/
theorem MappingTable.wlp_remove (h : MappingTable db name pairs) :
    wlp ((RowCall.delete rowid).perform .code name)
      (fun _ db' => MappingTable db' name (Function.update pairs rowid none)) db := by
  obtain ⟨state, tableId, root, Ms, hname, hschema, hinv, hrows⟩ := h.table
  have hsame : (RowCall.delete rowid).perform .code name db =
      (RowCall.delete rowid).perform (.watched Storable) name db :=
    performDelete_unindexed hname (indexes_mapping hschema)
  refine wlp_iff.mpr fun a db' hrun => ?_
  rw [hsame] at hrun
  obtain ⟨-, state₀, state', Ms', hname₀, hname', hschema', hinv', hrows'⟩ :=
    (wlp_performDelete hinv).ok hrun
  rw [hname] at hname₀
  obtain rfl := Option.some.inj hname₀
  refine ⟨state', tableId, root, Ms', hname', hschema.trans hschema', hinv', fun id => ?_⟩
  rw [hrows']
  dsimp only
  by_cases hid : id = rowid
  · subst hid
    rw [Function.update_self, Function.update_self]
    rfl
  · rw [Function.update_of_ne hid, Function.update_of_ne hid, hrows]

/-- The internal table of a new collection. -/
theorem MappingTable.wlp_create {Ms : String → TableModel} (h : DbInv Storable False db Ms) :
    wlp (Db.createTable name mappingColumns)
      (fun _ db' => MappingTable db' name fun _ => none) db := by
  refine (wlp_createTable_new h).post ?_
  rintro _ db' ⟨root, -, htables, hinv⟩
  refine ⟨_, db.nextTableId, root, _, ?_, .refl _, hinv, fun id => ?_⟩
  · rw [htables, AList.lookup_insert]
  · rw [Function.update_self]
    rfl

/-! ### Reading the pairs -/

omit [Crc32Fast] in
theorem get_mappingRow (h : SameSchema (TableMeta.new name tableId mappingColumns root) state)
    (id : UInt64) : (⟨id, mappingRow id nodeId⟩ : Row).get state.colNames state.colDefs "node_id" =
      .ok (some (.integer (Int64.ofNat nodeId))) := by
  have hcolumn : liveColumn state.colNames state.colDefs "node_id" = some 0 := by
    rw [h.colNames, h.colDefs]
    change liveColumn ["node_id"] mappingColumns "node_id" = some 0
    decide
  have hland : OffsetsLand [((0 : UInt16), Value.integer (Int64.ofNat nodeId))] := by
    refine ⟨by simp, fun i hi => .inl ?_⟩
    have hle := dataOffset_le (sortColumns [((0 : UInt16), Value.integer (Int64.ofNat nodeId))]) i
    rw [length_columnData_sortColumns] at hle
    exact hle.trans_lt (by simp [columnData, encodeValue])
  have hextract : extractColumn (mappingRow id nodeId) (UInt16.ofNat 0) =
      .ok (some (.integer (Int64.ofNat nodeId))) := by
    refine extractColumn_present (by simp) hland ?_ (by simp)
    change (mappingRow id nodeId).length < 2 ^ 32
    rw [length_mappingRow]
    decide
  unfold Row.get
  rw [if_neg (by decide), hcolumn]
  dsimp only
  rw [hextract]
  rfl

omit [Crc32Fast] in
/-- A row of the internal table stands for its pair. -/
theorem mappingOf_mappingRow
    (h : SameSchema (TableMeta.new name tableId mappingColumns root) state)
    (hnode : nodeId < 2 ^ 32) (id : UInt64) :
    Db.mappingOf state ⟨id, mappingRow id nodeId⟩ = .ok (some (id, nodeId)) := by
  unfold Db.mappingOf
  rw [get_mappingRow h id, ok_bind]
  have hback : (Int64.ofNat nodeId).toUInt64.toNat % 2 ^ 32 = nodeId := by
    change (UInt64.ofNat nodeId).toNat % 2 ^ 32 = nodeId
    rw [UInt64.toNat_ofNat']
    omega
  dsimp only
  rw [hback]
  rfl

/-- A query without filters returns the rows as they are stored. -/
theorem find_all_eq {file : PageFile} {leaves : List (Leaf UInt64 StoredRow)} {branches : List ℕ}
    (h : RowTree file state.rootPage leaves branches) (hclean : file.writeState = ⟨∅, 0⟩) :
    find file state (plainQuery [] []) =
      .ok ⟨((contents leaves).map toRow).take noLimit, none⟩ := by
  have hall : findAll file state = .ok ⟨(contents leaves).map toRow,
      ((contents leaves).map toRow).length, false⟩ := by
    rw [findAll, h.scanAll hclean, ok_bind]
    have hrows := h.unwrap_fromRaw (List.Subset.refl (contents leaves))
    change ((contents leaves).map rowOf).mapM (fun r => unwrap (Row.fromRaw r.2)) >>= _ = _
    rw [hrows]
    rfl
  unfold find
  show (findAll file state >>= _) = _
  rw [hall]
  rfl

/-- **The pairs are read back**, when the nodes are different and less than the limit of a
query. -/
theorem MappingTable.mappings (h : MappingTable db name pairs)
    (hlt : ∀ id v, pairs id = some v → v < noLimit)
    (hinj : ∀ id id' v, pairs id = some v → pairs id' = some v → id = id') :
    ∃ read, db.mappings name = .ok read ∧ (read.map Prod.fst).Nodup ∧
      ∀ id v, (id, v) ∈ read ↔ pairs id = some v := by
  obtain ⟨state, tableId, root, Ms, leaves, branches, hname, hschema, hinv, htree, hrep, hrows⟩ :=
    h.rowTree
  have hentry : ∀ e ∈ contents leaves, ∃ v, pairs e.1 = some v ∧ e.2.row = mappingRow e.1 v := by
    intro e he
    have hrow := (hrep.mem_iff _ _).mp (List.mem_map_of_mem he)
    rw [hrows] at hrow
    obtain ⟨v, hv, heq⟩ := Option.map_eq_some_iff.mp hrow
    exact ⟨v, hv, heq.symm⟩
  have hids : ((contents leaves).map Prod.fst).Nodup :=
    List.pairwise_map.mpr (htree.tree.ordered.keysIncrease.imp fun hlt => hlt.ne)
  have hnodes : ((contents leaves).map fun e => (pairs e.1).getD 0).Nodup := by
    rw [List.Nodup, List.pairwise_map] at hids ⊢
    refine hids.imp_of_mem fun {e e'} he he' hne heq => hne ?_
    obtain ⟨v, hv, -⟩ := hentry e he
    obtain ⟨v', hv', -⟩ := hentry e' he'
    rw [hv, hv', Option.getD_some, Option.getD_some] at heq
    subst heq
    exact hinj _ _ _ hv hv'
  -- so there are no more rows than a query returns
  have hlen : ((contents leaves).map toRow).length ≤ noLimit := by
    have hsub : ((contents leaves).map fun e => (pairs e.1).getD 0) ⊆ List.range noLimit := by
      intro n hn
      obtain ⟨e, he, rfl⟩ := List.mem_map.mp hn
      obtain ⟨v, hv, -⟩ := hentry e he
      rw [List.mem_range, hv]
      exact hlt _ _ hv
    have hle := (hnodes.subperm hsub).length_le
    rwa [List.length_map, List.length_range, ← List.length_map (f := toRow)] at hle
  have hfind : db.find name defaultQuery = .ok ⟨(contents leaves).map toRow, none⟩ := by
    unfold Db.find Db.tableState
    rw [hname, ok_bind, defaultQuery, find_all_eq htree hinv.clean, List.take_of_length_le hlen]
  have hread : ((contents leaves).map toRow).filterMapM (Db.mappingOf state) =
      .ok ((contents leaves).map fun e => (e.1, (pairs e.1).getD 0)) := by
    rw [Except.filterMapM_eq_ok (g := fun row : Row => (row.id, (pairs row.id).getD 0)),
      List.map_map]
    · rfl
    · intro row hrow
      obtain ⟨e, he, rfl⟩ := List.mem_map.mp hrow
      obtain ⟨v, hv, heq⟩ := hentry e he
      have hle := hlt _ _ hv
      rw [toRow, heq, mappingOf_mappingRow hschema (hle.trans (by decide)), hv]
      rfl
  refine ⟨(contents leaves).map fun e => (e.1, (pairs e.1).getD 0), ?_, ?_, fun id v => ?_⟩
  · unfold Db.mappings
    rw [hfind]
    unfold Db.tableState
    rw [hname, ok_bind, ok_bind, hread]
  · rw [List.map_map]
    exact hids
  · constructor
    · intro hmem
      obtain ⟨e, he, heq⟩ := List.mem_map.mp hmem
      obtain ⟨w, hw, -⟩ := hentry e he
      cases heq
      rw [hw]
      rfl
    · intro hv
      have hrow : (Ms name).rows id = some (mappingRow id v) := by
        rw [hrows, hv]
        rfl
      obtain ⟨e, he, heq⟩ := List.mem_map.mp ((hrep.mem_iff _ _).mpr hrow)
      refine List.mem_map.mpr ⟨e, he, ?_⟩
      have hid : e.1 = id := congrArg Prod.fst heq
      rw [hid, hv]
      rfl

end

end

end BoogyDb
