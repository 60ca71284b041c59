import BoogyDb.AcidTables

/-!
# The calls of a transaction as steps

What each call of a transaction does, when it returns: which rows the table it names has
afterwards, and that the transaction still sees sound tables (`TxInv`).  Calls that only read
leave the transaction as it is.  A commit turns what the transaction sees into the state of
the database (`wlp_txCommit`).
-/

namespace BoogyDb

open Bytes Wp WriteGuard FencedTree Ownership

/-! ## Programs under the guard -/

section

variable [Crc32Fast] {t : TableMeta} {root : ℕ} {indexes : List IndexMeta} {M : TableModel}
  {P : Set ℕ} {g : WriteGuard} {id : UInt64} {row : List UInt8}
  {storable : UInt64 → List UInt8 → Prop}

/-- **A row and its keys are put in.** -/
theorem wlp_putRow (hnames : (indexes.map IndexMeta.name).Nodup)
    (hstore : ∀ id row, storable id row → Storable id row) (h : TableAt root indexes M g P) :
    wlp (putRow (.watched storable) id row root (infosOf t indexes)) (fun r g' =>
      storable id row ∧ M.rows id = none ∧
      r.2.map Prod.fst = (infosOf t indexes).map IndexInfo.name ∧
      ∃ M', Edited 0 t indexes id row false
          { M with rows := Function.update M.rows id (some row) } M' ∧
        Turns (TableAt r.1 (withRoots r.2 indexes) M') g P g') g := by
  obtain ⟨Q, hQ, hback⟩ := h.rowsTree
  unfold putRow
  refine wp.bind (wp_insertRow_watched hQ hstore) ?_
  rintro root' g₁ ⟨⟨hrow, hnew⟩, hturn₁⟩
  obtain ⟨P₁, hP₁, hthen⟩ := (hback _ _ _ hturn₁).next
  refine wp.bind (wlp_insertEntries hnames hP₁) ?_
  rintro roots g₂ ⟨hroots, M', hedit, hturn⟩
  exact ⟨hrow, hnew, hroots, M', hedit, hthen _ _ hturn⟩

/-- A search through the overlay. -/
theorem search_guard (h : TableAt root indexes M g P) (id : UInt64) :
    BTreeWriter.search g root id = .ok (M.rows id) := by
  obtain ⟨Q, hQ, -⟩ := h.rowsTree
  exact searchTree_holds hQ.holds _ id

/-- **Fields are merged into a row**, if it is there. -/
theorem wlp_mergeRow {fields : List Column} (hnames : (indexes.map IndexMeta.name).Nodup)
    (hstore : ∀ id row, storable id row → Storable id row) (h : TableAt root indexes M g P) :
    wlp (mergeRow (.watched storable) id fields root (infosOf t indexes)) (fun r g' =>
      r.1 = (M.rows id).isSome ∧ match M.rows id with
        | none => g' = g
        | some old => ∃ existing row, decodeRow old = .ok existing ∧
            row = encodeRow id (collectColumns (existing.columns ++ fields)) ∧ storable id row ∧
            r.2.2.map Prod.fst = (infosOf t indexes).map IndexInfo.name ∧
            ∃ M₁ M₂ M', Edited 0 t indexes id old true M M₁ ∧
              Edited 0 t indexes id row false M₁ M₂ ∧
              M' = { M₂ with rows := Function.update M.rows id (some row) } ∧
              Turns (TableAt r.2.1 (withRoots r.2.2 indexes) M') g P g') g := by
  unfold mergeRow
  refine wp.bind (Q := fun found g' => found = M.rows id ∧ g' = g)
    (wlp_readOnly fun found hfound => ?_) ?_
  · rw [search_guard h] at hfound
    exact ⟨(Except.ok.inj hfound).symm, rfl⟩
  rintro found g' ⟨rfl, rfl⟩
  cases hid : M.rows id with
  | none => exact ⟨rfl, rfl⟩
  | some old =>
      refine wlp_lift_bind fun existing hexisting => ?_
      set row := encodeRow id (collectColumns (existing.columns ++ fields)) with hrow
      refine wp.bind (wlp_replaceEntries hnames h) ?_
      rintro roots g₁ ⟨hroots, M₁, M₂, hedit₁, hedit₂, hturn₁⟩
      obtain ⟨P₁, hP₁, hthen₁⟩ := hturn₁.next
      obtain ⟨Q₁, hQ₁, hback₁⟩ := hP₁.rowsTree
      refine wp.bind (wp_delete_rowsAt hQ₁) ?_
      rintro found g₂ ⟨-, hturn₂⟩
      obtain ⟨P₂, hP₂, hthen₂⟩ := (hback₁ _ _ _ hturn₂).next
      obtain ⟨Q₂, hQ₂, hback₂⟩ := hP₂.rowsTree
      refine wp.bind (wp_insertRow_watched hQ₂ hstore) ?_
      rintro root' g₃ ⟨⟨hstored, -⟩, hturn₃⟩
      have hrows : Function.update (Function.update M₂.rows id none) id (some row) =
          Function.update M.rows id (some row) := by
        rw [Function.update_idem, hedit₂.rows, hedit₁.rows]
      have hturn := hback₂ _ _ _ hturn₃
      dsimp only at hturn
      rw [hrows] at hturn
      exact ⟨rfl, existing, row, hexisting, hrow, hstored, hroots, M₁, M₂, _, hedit₁, hedit₂, rfl,
        hthen₁ _ _ (hthen₂ _ _ hturn)⟩

/-- **A row and its keys are taken out**, if it is there. -/
theorem wlp_removeRow {hasIndexes : Bool} (hnames : (indexes.map IndexMeta.name).Nodup)
    (hhas : hasIndexes = false → indexes = []) (h : TableAt root indexes M g P) :
    wlp (removeRow id hasIndexes root (infosOf t indexes)) (fun r g' =>
      r.1 = (M.rows id).isSome ∧ match M.rows id with
        | none => Turns (TableAt root indexes M) g P g'
        | some old => r.2.map Prod.fst = (infosOf t indexes).map IndexInfo.name ∧
            ∃ M', Edited 0 t indexes id old true
                { M with rows := Function.update M.rows id none } M' ∧
              Turns (TableAt root (withRoots r.2 indexes) M') g P g') g := by
  unfold removeRow
  -- without indexes there is nothing to read and no key to take out
  extract_lets rest
  have hrest : ∀ rowBytes : Option (List UInt8), indexes = [] ∨ rowBytes = M.rows id →
      wlp (rest rowBytes) (fun r g' =>
          r.1 = (M.rows id).isSome ∧ match M.rows id with
            | none => Turns (TableAt root indexes M) g P g'
            | some old => r.2.map Prod.fst = (infosOf t indexes).map IndexInfo.name ∧
                ∃ M', Edited 0 t indexes id old true
                    { M with rows := Function.update M.rows id none } M' ∧
                  Turns (TableAt root (withRoots r.2 indexes) M') g P g') g := by
    intro rowBytes hbytes
    obtain ⟨Q, hQ, hback⟩ := h.rowsTree
    refine wp.bind (wp_delete_rowsAt hQ) ?_
    rintro deleted g₁ ⟨rfl, hturn₁⟩
    have hturn := hback _ _ _ hturn₁
    obtain ⟨P₁, hP₁, hthen⟩ := hturn.next
    cases hid : M.rows id with
    | none =>
        rw [← hid, Function.update_eq_self] at hturn
        cases rowBytes with
        | none => exact ⟨rfl, hturn⟩
        | some bytes => exact ⟨rfl, hturn⟩
    | some old =>
        rw [hid] at hbytes
        cases rowBytes with
        | none =>
            obtain rfl : indexes = [] := hbytes.resolve_right (by simp)
            refine ⟨rfl, rfl, _, ⟨rfl, (fun i idx _ hi => by cases hi), fun _ _ => rfl⟩, ?_⟩
            exact hturn
        | some bytes =>
            refine wp.bind (wlp_deleteEntries hnames hP₁) ?_
            rintro roots g₂ ⟨hroots, M', hedit, hturn₂⟩
            refine ⟨rfl, hroots, M', ?_, hthen _ _ hturn₂⟩
            rcases hbytes with rfl | hbytes
            · exact ⟨hedit.rows, (fun i idx _ hi => by cases hi), hedit.others⟩
            · rw [← Option.some.inj hbytes]
              exact hedit
  cases hasIndexes with
  | false => exact hrest none (.inl (hhas rfl))
  | true =>
      refine wp.bind (Q := fun found g' => found = M.rows id ∧ g' = g)
        (wlp_readOnly fun found hfound => ?_) ?_
      · rw [search_guard h] at hfound
        exact ⟨(Except.ok.inj hfound).symm, rfl⟩
      rintro found g' ⟨rfl, rfl⟩
      exact hrest _ (.inr rfl)

/-- A scan through the overlay lists the rows, while there are page numbers left. -/
theorem scanAllW_ok (h : TableAt root indexes M g P) (hbound : g.bound < pageNoLimit) :
    ∃ rows, BTreeWriter.scanAllW g root = .ok rows ∧ Represents rows M.rows := by
  obtain ⟨Q, ⟨leaves, branches, htree, hrep, -⟩, -⟩ := h.rowsTree
  obtain ⟨l, rest, page, rfl, hdescend⟩ := htree.tree.descend_leftmost
    "B+ tree depth exceeds maximum in find_leftmost_leaf_w"
  have hlen := htree.tree.length_le
  rw [List.length_cons] at hlen
  refine ⟨_, ?_, hrep⟩
  unfold BTreeWriter.scanAllW BTreeWriter.findLeftmostLeafW maxPages
  rw [hdescend, ok_bind, if_neg (Nat.not_le.mpr hbound)]
  exact walkRows_holds htree hlen

theorem scanAllW_guard (h : TableAt root indexes M g P) {rows : RowList}
    (hscan : BTreeWriter.scanAllW g root = .ok rows) : Represents rows M.rows := by
  have hbound : g.bound < pageNoLimit := by
    by_contra hfull
    unfold BTreeWriter.scanAllW maxPages at hscan
    rw [if_pos (Nat.le_of_not_lt hfull)] at hscan
    obtain ⟨_, -, hscan⟩ := bind_eq_ok.mp hscan
    cases hscan
  obtain ⟨rows', hscan', hrep⟩ := scanAllW_ok h hbound
  rw [← Except.ok.inj (hscan'.symm.trans hscan)]
  exact hrep

end

/-! ## Tables -/

section

variable {t t' : TableMeta} {M M₁ M₂ M' : TableModel} {id next : UInt64} {n : ℕ}
  {row old : List UInt8} {storable : UInt64 → List UInt8 → Prop} {keyed : Prop}

/-- There are no more rows than ids below the next one. -/
theorem TableInv.count_le (h : TableInv storable M n next) : n ≤ next.toNat := by
  obtain ⟨ids, hmem, rfl⟩ := h.counted
  have hsub : ids.map ⟨UInt64.toNat, fun a b => UInt64.toNat_inj.mp⟩ ⊆ Finset.range next.toNat := by
    intro k hk
    obtain ⟨id, hid, rfl⟩ := Finset.mem_map.mp hk
    obtain ⟨row, hrow⟩ := Option.isSome_iff_exists.mp ((hmem id).mp hid)
    exact Finset.mem_range.mpr (UInt64.lt_iff_toNat_lt.mp (h.below id row hrow))
  calc ids.card = (ids.map ⟨UInt64.toNat, fun a b => UInt64.toNat_inj.mp⟩).card :=
        (Finset.card_map _).symm
    _ ≤ (Finset.range next.toNat).card := Finset.card_le_card hsub
    _ = next.toNat := Finset.card_range _

/-- A table with one row more. -/
theorem TableOk.insertRow (h : TableOk storable keyed t M) (hschema : SameSchema t t')
    (hedit : Edited 0 t t.indexes id row false
      { M with rows := Function.update M.rows id (some row) } M')
    (hnew : M.rows id = none) (hrow : storable id row) (hcount : t'.rowCount = t.rowCount + 1)
    (hle : t.nextRowid ≤ t'.nextRowid) (hlt : id < t'.nextRowid) :
    TableOk storable keyed t' M' := by
  refine h.sameSchema hschema (fun hindexed => ?_) fun hinv => ?_
  · have hkeys : IndexedBy t t.indexes { M with rows := Function.update M.rows id (some row) }
        M.rows := hindexed
    rw [hedit.rows]
    exact (hkeys.put hedit hnew).congr hschema hschema.indexes
  · have hput := hinv.put hnew hrow hedit.rows hle hlt
    have hbound := hput.count_le.trans_lt t'.nextRowid.toNat_lt
    have hnat : t'.rowCount.toNat = t.rowCount.toNat + 1 := by
      rw [hcount, UInt64.toNat_add]
      exact Nat.mod_eq_of_lt hbound
    rw [hnat]
    exact hput

/-- A table with a row replaced. -/
theorem TableOk.replaceRow (h : TableOk storable keyed t M) (hschema : SameSchema t t')
    (hremove : Edited 0 t t.indexes id old true M M₁) (hput : Edited 0 t t.indexes id row false M₁ M₂)
    (hid : M.rows id = some old) (hrow : storable id row) (hcount : t'.rowCount = t.rowCount)
    (hnext : t'.nextRowid = t.nextRowid) :
    TableOk storable keyed t' { M₂ with rows := Function.update M.rows id (some row) } := by
  refine h.sameSchema hschema (fun hindexed => ?_) fun hinv => ?_
  · have hgone : Function.update M.rows id none id = none := Function.update_self ..
    have hwith := IndexedBy.put (IndexedBy.remove hindexed hremove hid) hput hgone
    rw [Function.update_idem] at hwith
    exact IndexedBy.congr hwith hschema hschema.indexes
  · rw [hcount, hnext]
    exact hinv.replace hid hrow rfl

/-- A table with one row less. -/
theorem TableOk.eraseRow (h : TableOk storable keyed t M) (hschema : SameSchema t t')
    (hedit : Edited 0 t t.indexes id old true
      { M with rows := Function.update M.rows id none } M')
    (hid : M.rows id = some old) (hcount : t'.rowCount = t.rowCount - 1)
    (hnext : t'.nextRowid = t.nextRowid) : TableOk storable keyed t' M' := by
  refine h.sameSchema hschema (fun hindexed => ?_) fun hinv => ?_
  · have hkeys : IndexedBy t t.indexes { M with rows := Function.update M.rows id none } M.rows :=
      hindexed
    rw [hedit.rows]
    exact (hkeys.remove hedit hid).congr hschema hschema.indexes
  · have hpos : 1 ≤ t.rowCount.toNat := by
      obtain ⟨ids, hmem, hcard⟩ := hinv.counted
      have hin : id ∈ ids := by simp [hmem, hid]
      rw [← hcard]
      exact Finset.card_pos.mpr ⟨id, hin⟩
    have hnat : t'.rowCount.toNat = t.rowCount.toNat - 1 := by
      rw [hcount]
      exact UInt64.toNat_sub_of_le _ _ (UInt64.le_iff_toNat_le.mpr hpos)
    rw [hnat, hnext]
    exact hinv.erase hid hedit.rows

end

/-! ## Calls that write one row -/

section

variable [Crc32Fast] {s : InTransaction} {Ms : String → TableModel} {tbl : String}
  {state : TableMeta} {storable : UInt64 → List UInt8 → Prop} {keyed : Prop}

omit [Crc32Fast] in
theorem wlp_tableState :
    wlp (InTransaction.tableState tbl) (fun state s' => s' = s ∧
      s.db.tables.lookup tbl = some state) s := by
  unfold InTransaction.tableState
  refine wlp_get_bind.mpr ?_
  cases s.db.tables.lookup tbl with
  | none => exact wlp_throw
  | some state => exact ⟨rfl, rfl⟩

omit [Crc32Fast] in
/-- The checks of the unique indexes, each by itself. -/
theorem wlp_checkIndexes {f : IndexMeta → Result Unit} (indexes : List IndexMeta) :
    wlp (indexes.forM fun idx => (liftM (f idx) : StateResult InTransaction Unit))
      (fun _ s' => s' = s ∧ ∀ idx ∈ indexes, f idx = .ok ()) s := by
  rw [forM_lift]
  exact wlp_lift fun _ hok => ⟨rfl, Except.forM_eq_ok_iff.mp hok⟩

omit [Crc32Fast] in
/-- The prefixes of a row in the unique indexes. -/
theorem wlp_uniquePrefixes {bytes : List UInt8} (indexes : List IndexMeta) :
    wlp (indexes.filterMapM fun idx => do
        let pre ← uniquePrefix state bytes idx
        pure (pre.map fun p => (tbl, idx.name, p)) :
          StateResult InTransaction (List (String × String × List UInt8)))
      (fun seen s' => s' = s ∧ ∀ e, e ∈ seen ↔ ∃ idx ∈ indexes, ∃ pre,
        uniquePrefix state bytes idx = .ok (some pre) ∧ e = (tbl, idx.name, pre)) s := by
  induction indexes with
  | nil => exact ⟨rfl, by simp⟩
  | cons idx indexes ih =>
      rw [List.filterMapM_cons, bind_assoc]
      refine wlp_lift_bind fun found hfound => ?_
      rw [pure_bind]
      cases found with
      | none =>
          refine ih.post ?_
          rintro seen s' ⟨rfl, hseen⟩
          refine ⟨rfl, fun e => (hseen e).trans ?_⟩
          simp [hfound]
      | some pre =>
          refine wp.bind ih ?_
          rintro seen s' ⟨rfl, hseen⟩
          refine ⟨rfl, fun e => ?_⟩
          rw [List.mem_cons, hseen]
          simp [hfound]

/-- **The unique indexes are checked**, and the prefixes of the row are noted. -/
theorem wlp_enforceUniqueIndexesAcid {bytes : List UInt8} :
    wlp (InTransaction.enforceUniqueIndexesAcid tbl state bytes) (fun _ s' =>
      (∀ idx ∈ state.indexes, enforceUniqueAcid s.db s.tx tbl state bytes idx = .ok ()) ∧
      ∃ seen, s' = { s with tx.uniqueSeen := seen ++ s.tx.uniqueSeen } ∧
        ∀ e, e ∈ seen ↔ ∃ idx ∈ state.indexes, ∃ pre,
          uniquePrefix state bytes idx = .ok (some pre) ∧ e = (tbl, idx.name, pre)) s := by
  unfold InTransaction.enforceUniqueIndexesAcid
  refine wlp_get_bind.mpr (wp.bind (wlp_checkIndexes state.indexes) ?_)
  rintro _ s₁ ⟨rfl, hchecks⟩
  refine wp.bind (wlp_uniquePrefixes state.indexes) ?_
  rintro seen s₂ ⟨rfl, hseen⟩
  exact ⟨hchecks, seen, rfl, hseen⟩

omit [Crc32Fast] in
theorem wlp_changeDelta {fresh : MetaDelta} {f : MetaDelta → MetaDelta}
    {Q : Unit → InTransaction → Prop} :
    wlp (InTransaction.changeDelta tbl fresh f) Q s ↔
      Q () { s with tx.metaDeltas :=
        s.tx.metaDeltas.insert tbl (f ((s.tx.metaDeltas.lookup tbl).getD fresh)) } := Iff.rfl

omit [Crc32Fast] in
theorem seen_rowCount (tx : AcidTransaction) (tbl : String) (state : TableMeta) {fresh : MetaDelta}
    (hzero : fresh.rowCountDelta = 0) :
    (state.rowCount.toInt64 + ((tx.metaDeltas.lookup tbl).getD fresh).rowCountDelta).toUInt64 =
      (tx.seen tbl state).rowCount := by
  unfold AcidTransaction.seen
  cases tx.metaDeltas.lookup tbl with
  | none =>
      rw [Option.getD_none, hzero, Int64.add_zero]
      exact UInt64.toUInt64_toInt64 _
  | some delta => rfl

theorem TxInv.nextRowid_getD (h : TxInv storable keyed s Ms)
    (hname : s.db.tables.lookup tbl = some state) {fresh : MetaDelta}
    (hfresh : fresh.nextRowid = (s.tx.seen tbl state).nextRowid) :
    ((s.tx.metaDeltas.lookup tbl).getD fresh).nextRowid = (s.tx.seen tbl state).nextRowid := by
  unfold AcidTransaction.seen at hfresh ⊢
  rcases h.delta_cases hname with hnone | ⟨delta, hdelta, hok⟩
  · rw [hnone] at hfresh ⊢
    exact hfresh
  · rw [hdelta]
    exact hok.apply_nextRowid.symm

/-- An insertion in a transaction: `row` is new, has passed the checks, and its prefixes are
noted. -/
structure TxInserted (storable : UInt64 → List UInt8 → Prop) (keyed : Prop) (tbl : String)
    (state : TableMeta) (rowid : UInt64) (row : List UInt8) (s s' : InTransaction)
    (Ms Ms' : String → TableModel) : Prop where
  named : s.db.tables.lookup tbl = some state
  stored : storable rowid row
  fresh : (Ms tbl).rows rowid = none
  checked : ∀ idx ∈ state.indexes, enforceUniqueAcid s.db s.tx tbl state row idx = .ok ()
  moves : TxMoves s s'
  next : rowid < (s'.tx.seen tbl state).nextRowid
  seen : ∀ e, e ∈ s'.tx.uniqueSeen ↔ e ∈ s.tx.uniqueSeen ∨ ∃ idx ∈ state.indexes, ∃ pre,
    uniquePrefix state row idx = .ok (some pre) ∧ e = (tbl, idx.name, pre)
  rows : (Ms' tbl).rows = Function.update (Ms tbl).rows rowid (some row)
  others : ∀ name, name ≠ tbl → Ms' name = Ms name
  inv : TxInv storable keyed s' Ms'

/-- **The common part of the insertions.** -/
theorem wlp_insertAs {rowid freshNext : UInt64} {data : RowData} {nextRowid : Result UInt64}
    (h : TxInv storable keyed s Ms) (hname : s.db.tables.lookup tbl = some state)
    (hstore : ∀ id row, storable id row → Storable id row)
    (hnext : ∀ n, nextRowid = .ok n → (s.tx.seen tbl state).nextRowid ≤ n ∧ rowid < n) :
    wlp (InTransaction.insertAs (.watched storable) tbl state rowid data freshNext nextRowid)
      (fun _ s' => ∃ Ms', TxInserted storable keyed tbl state rowid
        (encodeRow rowid (columnValues state data)) s s' Ms Ms') s := by
  unfold InTransaction.insertAs
  refine wlp_get_bind.mpr (wlp_ite (fun _ => wlp_throw) fun _ => ?_)
  set row := encodeRow rowid (columnValues state data) with hrow
  refine wp.bind wlp_enforceUniqueIndexesAcid ?_
  rintro _ s₁ ⟨hchecks, seen, hs₁, hseen⟩
  obtain ⟨htable, -⟩ := h.table hname
  obtain ⟨P, hP, -, hback⟩ := h.work hname
  have hguard : s₁.guard = s.guard := by
    rw [hs₁]
    rfl
  rw [h.compositeIndexInfo_eq hname, currentRoot_eq]
  have hput := @wlp_putRow _ (s.tx.seen tbl state) _ _ _ _ _ rowid row _ htable.names hstore hP
  rw [← hguard] at hput
  have hclean₁ : s₁.db.file.writeState = ⟨∅, 0⟩ := by
    rw [hs₁]
    exact h.clean
  refine wp.bind (wlp_withGuard hclean₁ (OverlayFrom.putRow (OverlayFrom.watched storable) _ _ _ _) hput) ?_
  rintro ⟨newRoot, roots⟩ s₂ ⟨g', hs₂, hstages, hstored, hnew, hroots, M', hedit, hturn⟩
  refine wlp_lift_bind fun next hok => ?_
  obtain ⟨hle, hlt⟩ := hnext next hok
  -- the delta of the table is started here if this is the first write to it
  set old := (s.tx.metaDeltas.lookup tbl).getD
    ⟨(s.tx.seen tbl state).rootPage, 0, freshNext, state.tableId, []⟩ with hold
  set delta : MetaDelta := { old with
    rootPage := newRoot
    rowCountDelta := old.rowCountDelta + 1
    nextRowid := next
    indexRoots := roots } with hdelta
  have hmeta : s₂.tx.metaDeltas = s.tx.metaDeltas := by
    rw [hs₂, hs₁]
    rfl
  obtain ⟨hok, hindexes, hschema⟩ := h.newDelta hname
    (show (s.tx.seen tbl state).nextRowid ≤ delta.nextRowid from hle) hroots
  -- the row count and the next id of the merged table are those of the delta
  have hcount : (delta.apply state).rowCount = (s.tx.seen tbl state).rowCount + 1 := by
    rw [← seen_rowCount s.tx tbl state
      (show (⟨(s.tx.seen tbl state).rootPage, 0, freshNext, state.tableId, []⟩ :
        MetaDelta).rowCountDelta = 0 from rfl)]
    exact MetaDelta.rowCount_add state old.rowCountDelta 1
  have hnextRowid : (delta.apply state).nextRowid = next := hok.apply_nextRowid
  refine wlp_changeDelta.mpr ?_
  rw [hmeta, ← hold]
  refine ⟨Function.update Ms tbl M', hname, hstored, hnew, hchecks,
    TxMoves.delta hname ?_ rfl hle, ?_, fun e => ?_, ?_,
    fun name hne => Function.update_of_ne hne .., hback delta M' _ hok ?_ ?_ ?_ rfl⟩
  · show s₂.db = s.db
    rw [hstages.db, hs₁]
  · rw [AcidTransaction.seen, AList.lookup_insert]
    exact hlt.trans_le hnextRowid.ge
  · show e ∈ s₂.tx.uniqueSeen ↔ _
    rw [hs₂, hs₁]
    show e ∈ seen ++ s.tx.uniqueSeen ↔ _
    rw [List.mem_append, hseen, or_comm]
  · rw [Function.update_self]
    exact hedit.rows
  · exact htable.insertRow hschema hedit hnew hstored hcount (by rw [hnextRowid]; exact hle)
      (by rw [hnextRowid]; exact hlt)
  · rw [hindexes]
    show Turns _ _ _ s₂.guard
    rw [hs₂, InTransaction.guard_leave, ← hguard]
    exact hturn
  · exact hstages.congr (by rw [hs₁]) hguard rfl rfl

/-- **An insertion** in a transaction. -/
theorem wlp_txInsert {data : RowData} (h : TxInv storable keyed s Ms)
    (hstore : ∀ id row, storable id row → Storable id row) :
    wlp (InTransaction.insert (.watched storable) tbl data) (fun rowid s' => ∃ state Ms',
      rowid = (s.tx.seen tbl state).nextRowid ∧ TxInserted storable keyed tbl state rowid
        (encodeRow rowid (columnValues state data)) s s' Ms Ms') s := by
  unfold InTransaction.insert
  refine wp.bind wlp_tableState ?_
  rintro state s₁ ⟨rfl, hname⟩
  refine wlp_lift_bind fun _ _ => wlp_get_bind.mpr ?_
  rw [h.currentNextRowid_eq hname]
  refine wp.bind (wlp_insertAs h hname hstore fun n hn => ?_) ?_
  · exact ⟨(lt_of_addOne hn).le, lt_of_addOne hn⟩
  · rintro _ s₂ ⟨Ms', hinserted⟩
    exact ⟨state, Ms', rfl, hinserted⟩

/-- **An insertion with an id** in a transaction. -/
theorem wlp_txInsertWithId {rowid : UInt64} {data : RowData} (h : TxInv storable keyed s Ms)
    (hstore : ∀ id row, storable id row → Storable id row) :
    wlp (InTransaction.insertWithId (.watched storable) tbl rowid data) (fun _ s' => ∃ state Ms',
      TxInserted storable keyed tbl state rowid (encodeRow rowid (columnValues state data)) s s' Ms
        Ms') s := by
  unfold InTransaction.insertWithId
  refine wp.bind wlp_tableState ?_
  rintro state s₁ ⟨rfl, hname⟩
  refine wlp_lift_bind fun _ _ => wlp_get_bind.mpr ?_
  rw [h.currentNextRowid_eq hname]
  refine (wlp_insertAs h hname hstore fun n hn => ?_).post ?_
  · split at hn
    · rename_i hle
      exact ⟨hle.trans (lt_of_addOne hn).le, lt_of_addOne hn⟩
    · rename_i hlt
      rw [← Except.ok.inj hn]
      exact ⟨le_rfl, lt_of_not_ge hlt⟩
  · rintro _ s₂ ⟨Ms', hinserted⟩
    exact ⟨state, Ms', hinserted⟩

/-- **An update** in a transaction merges the fields into the row, if it is there. -/
theorem wlp_txUpdate {id : UInt64} {fields : RowData} (h : TxInv storable keyed s Ms)
    (hstore : ∀ id row, storable id row → Storable id row) :
    wlp (InTransaction.update (.watched storable) tbl id fields) (fun found s' =>
      ∃ state, s.db.tables.lookup tbl = some state ∧ found = ((Ms tbl).rows id).isSome ∧
        TxMoves s s' ∧ s'.tx.uniqueSeen = s.tx.uniqueSeen ∧
        match (Ms tbl).rows id with
        | none => TxInv storable keyed s' Ms
        | some old => ∃ existing row M', decodeRow old = .ok existing ∧
            row = encodeRow id (collectColumns (existing.columns ++ columnValues state fields)) ∧
            storable id row ∧ M'.rows = Function.update (Ms tbl).rows id (some row) ∧
            TxInv storable keyed s' (Function.update Ms tbl M')) s := by
  unfold InTransaction.update
  refine wp.bind wlp_tableState ?_
  rintro state s₁ ⟨rfl, hname⟩
  refine wlp_lift_bind fun _ _ => wlp_get_bind.mpr ?_
  obtain ⟨htable, -⟩ := h.table hname
  obtain ⟨P, hP, hkeep, hback⟩ := h.work hname
  rw [h.compositeIndexInfo_eq hname, currentRoot_eq, h.currentNextRowid_eq hname]
  refine wp.bind (wlp_withGuard h.clean (OverlayFrom.mergeRow (OverlayFrom.watched storable) _ _ _ _)
    (@wlp_mergeRow _ (s₁.tx.seen tbl state) _ _ _ _ _ id _ (columnValues state fields) htable.names
      hstore hP)) ?_
  rintro ⟨updated, newRoot, roots⟩ s₂ ⟨g', rfl, hstages, hupdated, hcase⟩
  dsimp only at hupdated hcase ⊢
  cases hid : (Ms tbl).rows id with
  | none =>
      rw [hid] at hupdated hcase
      subst hcase
      rw [show updated = false from hupdated, if_neg Bool.false_ne_true]
      refine ⟨state, hname, rfl, .same hstages.db rfl, rfl, hkeep _ ?_ hstages rfl⟩
      rw [InTransaction.guard_leave]
      exact Turns.refl hP
  | some old =>
      rw [hid] at hupdated hcase
      obtain ⟨existing, row, hexisting, hrow, hstored, hroots, M₁, M₂, M', hedit₁, hedit₂, rfl,
        hturn⟩ := hcase
      rw [show updated = true from hupdated, if_pos rfl]
      set old' := (s₁.tx.metaDeltas.lookup tbl).getD ⟨(s₁.tx.seen tbl state).rootPage, 0,
        (s₁.tx.seen tbl state).nextRowid, state.tableId, []⟩ with hold'
      set delta : MetaDelta := { old' with rootPage := newRoot, indexRoots := roots } with hdelta
      have hnextRowid : delta.nextRowid = (s₁.tx.seen tbl state).nextRowid :=
        h.nextRowid_getD hname rfl
      obtain ⟨hok, hindexes, hschema⟩ := h.newDelta hname hnextRowid.ge hroots
      have hcount : (delta.apply state).rowCount = (s₁.tx.seen tbl state).rowCount :=
        seen_rowCount s₁.tx tbl state rfl
      refine ⟨state, hname, rfl, .delta hname hstages.db rfl hnextRowid.ge, rfl,
        existing, row,
        { M₂ with rows := Function.update (Ms tbl).rows id (some row) }, hexisting, hrow, hstored,
        rfl, hback delta _ _ hok ?_ ?_ (hstages.congr rfl rfl rfl rfl) rfl⟩
      · exact htable.replaceRow hschema hedit₁ hedit₂ hid hstored hcount
          (hok.apply_nextRowid.trans hnextRowid)
      · rw [hindexes]
        show Turns _ _ _ (s₁.leave g').guard
        rw [InTransaction.guard_leave]
        exact hturn

/-- **A deletion** in a transaction removes the row with this id, if it is there. -/
theorem wlp_txDelete {id : UInt64} (h : TxInv storable keyed s Ms) :
    wlp (InTransaction.delete tbl id) (fun found s' => ∃ state,
      s.db.tables.lookup tbl = some state ∧ found = ((Ms tbl).rows id).isSome ∧
      TxMoves s s' ∧ s'.tx.uniqueSeen = s.tx.uniqueSeen ∧
      match (Ms tbl).rows id with
      | none => TxInv storable keyed s' Ms
      | some _ => ∃ M', M'.rows = Function.update (Ms tbl).rows id none ∧
          TxInv storable keyed s' (Function.update Ms tbl M')) s := by
  unfold InTransaction.delete
  refine wp.bind wlp_tableState ?_
  rintro state s₁ ⟨rfl, hname⟩
  refine wlp_get_bind.mpr ?_
  obtain ⟨htable, -⟩ := h.table hname
  obtain ⟨P, hP, hkeep, hback⟩ := h.work hname
  have hshapes := (h.seen_sameSchema hname).indexes
  -- the flag is taken from the table, the indexes from the merged one: they have the same shapes
  have hhas : (!state.indexes.isEmpty) = false → (s₁.tx.seen tbl state).indexes = [] := by
    intro hempty
    have hnil : state.indexes = [] := by simpa using hempty
    have hlen := hshapes.length
    rw [hnil] at hlen
    exact List.length_eq_zero_iff.mp hlen
  rw [h.compositeIndexInfo_eq hname, currentRoot_eq, h.currentNextRowid_eq hname]
  refine wp.bind (wlp_withGuard h.clean (OverlayFrom.removeRow _ _ _ _)
    (@wlp_removeRow _ (s₁.tx.seen tbl state) _ _ _ _ _ id _ htable.names hhas hP)) ?_
  rintro ⟨deleted, roots⟩ s₂ ⟨g', rfl, hstages, hdeleted, hcase⟩
  dsimp only at hdeleted hcase ⊢
  cases hid : (Ms tbl).rows id with
  | none =>
      rw [hid] at hdeleted hcase
      rw [show deleted = false from hdeleted, if_neg Bool.false_ne_true]
      refine ⟨state, hname, rfl, .same hstages.db rfl, rfl, hkeep _ ?_ hstages rfl⟩
      rw [InTransaction.guard_leave]
      exact hcase
  | some old =>
      rw [hid] at hdeleted hcase
      obtain ⟨hroots, M', hedit, hturn⟩ := hcase
      rw [show deleted = true from hdeleted, if_pos rfl]
      set old' := (s₁.tx.metaDeltas.lookup tbl).getD ⟨(s₁.tx.seen tbl state).rootPage, 0,
        (s₁.tx.seen tbl state).nextRowid, state.tableId, []⟩ with hold'
      set delta : MetaDelta := { old' with
        rootPage := (s₁.tx.seen tbl state).rootPage
        rowCountDelta := old'.rowCountDelta - 1
        indexRoots := roots } with hdelta
      have hnextRowid : delta.nextRowid = (s₁.tx.seen tbl state).nextRowid :=
        h.nextRowid_getD hname rfl
      obtain ⟨hok, hindexes, hschema⟩ := h.newDelta hname hnextRowid.ge hroots
      -- the delta is signed, and the row count wraps back to what it was less one
      have hcount : (delta.apply state).rowCount = (s₁.tx.seen tbl state).rowCount - 1 := by
        rw [← seen_rowCount s₁.tx tbl state (show (⟨(s₁.tx.seen tbl state).rootPage, 0,
          (s₁.tx.seen tbl state).nextRowid, state.tableId, []⟩ : MetaDelta).rowCountDelta = 0
            from rfl)]
        show (state.rowCount.toInt64 + (old'.rowCountDelta - 1)).toUInt64 = _
        rw [Int64.sub_eq_add_neg, MetaDelta.rowCount_add, UInt64.sub_eq_add_neg]
        rfl
      refine ⟨state, hname, rfl, .delta hname hstages.db rfl hnextRowid.ge, rfl, M', hedit.rows,
        hback delta _ _ hok ?_ ?_ (hstages.congr rfl rfl rfl rfl) rfl⟩
      · exact htable.eraseRow hschema hedit hid hcount (hok.apply_nextRowid.trans hnextRowid)
      · rw [hindexes]
        show Turns _ _ _ (s₁.leave g').guard
        rw [InTransaction.guard_leave]
        exact hturn

end

end BoogyDb
