import BoogyDb.CheckedRuns
import BoogyDb.Duplicates

/-!
# Row ids

In every state of a run the next row id of a table is above every id that the table ever had
(`EverStored.lt`).  So the ids that insertions choose are free, and insertions do not fail with
`DuplicateKey` (`Reaches.rowids`).
-/

namespace BoogyDb

open Bytes Wp WriteGuard FencedTree Ownership NoDuplicateIn

/-! ## The ids that insertions choose -/

section

variable [Crc32Fast] {w : TreeWriters}

/-- The ids are new and go up. -/
def Ascend (next : UInt64) (ids : List UInt64) : Prop :=
  ids.Pairwise (· < ·) ∧ ∀ id ∈ ids, next ≤ id

omit [Crc32Fast] in
theorem Ascend.nil (next : UInt64) : Ascend next [] := ⟨.nil, nofun⟩

omit [Crc32Fast] in
theorem Ascend.cons {next next' : UInt64} {ids : List UInt64} (hlt : next < next')
    (h : Ascend next' ids) : Ascend next (next :: ids) := by
  refine ⟨List.pairwise_cons.mpr ⟨fun id hid => hlt.trans_le (h.2 id hid), h.1⟩, fun id hid => ?_⟩
  rcases List.mem_cons.mp hid with rfl | hid
  · exact le_rfl
  · exact hlt.le.trans (h.2 id hid)

/-- `insert` takes the next row id. -/
theorem wlp_insert_rowid {s : Session} {data : RowData} :
    wlp (Session.insert w data) (fun id _ => id = s.state.nextRowid) s := by
  unfold Session.insert
  refine wlp_get_bind.mpr (wlp_lift_bind fun _ _ => wlp_lift_bind fun next hnext => ?_)
  refine wlp_modifyState_bind.mpr (wlp_ite (fun _ => wlp_throw) fun _ => ?_)
  split
  · exact wp.bind (Q := fun _ _ => True) wlp_true fun _ _ _ =>
      wp.bind (Q := fun _ _ => True) wlp_true fun _ _ _ => rfl
  · trivial
  · trivial

/-- The loop of `insert_many` counts the ids up. -/
theorem wlp_insertManyLoop_rowids {datas : List RowData} {root : ℕ} {next : UInt64}
    {ids : List UInt64} {s : Session} :
    wlp (Session.insertManyLoop w datas root next ids)
      (fun res _ => ∃ new, res.2.2 = ids ++ new ∧ Ascend next new) s := by
  induction datas generalizing s root next ids with
  | nil => exact ⟨[], (List.append_nil _).symm, .nil _⟩
  | cons data datas ih =>
      unfold Session.insertManyLoop
      refine wlp_get_bind.mpr (wlp_lift_bind fun next' hnext => wlp_ite (fun _ => wlp_throw) fun _ => ?_)
      refine wp.bind (Q := fun _ _ => True) wlp_true fun root' s₁ _ =>
        wp.bind (Q := fun _ _ => True) wlp_true fun _ s₂ _ => ih.post ?_
      rintro res s' ⟨new, hids, hnew⟩
      refine ⟨next :: new, ?_, hnew.cons (lt_of_addOne hnext)⟩
      rw [hids, List.append_assoc]
      rfl

/-- An insertion in a transaction takes the next row id that the transaction has. -/
theorem wlp_txInsert_rowid {s : InTransaction} {tbl : String} {state : TableMeta} {data : RowData}
    (hname : s.db.tables.lookup tbl = some state) :
    wlp (InTransaction.insert w tbl data) (fun id _ => id = s.tx.currentNextRowid tbl state) s := by
  unfold InTransaction.insert
  refine wp_bind.mpr ((wp_of_ok (tableState_ok hname)).mpr ?_)
  refine wlp_lift_bind fun _ _ => wlp_get_bind.mpr ?_
  exact wp.bind (Q := fun _ _ => True) wlp_true fun _ _ _ => rfl

end

/-! ## Insertions of several rows -/

theorem wp_lift_bind {σ α β : Type} {x : Result α} {f : α → StateResult σ β} {s : σ}
    {Q : β → σ → Prop} (hx : NoDuplicate x)
    (hf : ∀ a, x = .ok a → wp (f a) Q (fun e _ => e.OtherThanDuplicate) s) :
    wp ((liftM x : StateResult σ α) >>= f) Q (fun e _ => e.OtherThanDuplicate) s := by
  cases x with
  | ok a => exact hf a rfl
  | error e => exact hx e rfl

section

variable [Crc32Fast] {storable : UInt64 → List UInt8 → Prop} {keyed : Prop} {s : Session}
  {M : TableModel} {P : Set ℕ} {root : ℕ} {next : UInt64}

theorem insertManyLoop_noDuplicate {datas : List RowData} {ids : List UInt64}
    (h : TableAt root s.state.indexes M s.file P)
    (hstore : ∀ id row, storable id row → Storable id row)
    (hbelow : ∀ id row, M.rows id = some row → id < next) :
    NoDuplicateAt (Session.insertManyLoop (.watched storable) datas root next ids) s := by
  induction datas generalizing s M P root next ids with
  | nil => trivial
  | cons data datas ih =>
      unfold Session.insertManyLoop
      refine wp_get_bind.mpr (lift_bind (.addOne _) fun next' hnext =>
        wp_ite (fun _ id heq => by cases heq) fun _ => ?_)
      obtain ⟨Q, hQ, -⟩ := h.rowsTree
      have hnone : M.rows next = none := by
        by_contra hrow
        obtain ⟨row, hrow⟩ := Option.ne_none_iff_exists'.mp hrow
        exact lt_irrefl _ (hbelow next row hrow)
      refine wp_bind.mpr (((wlp_insertTree h hstore).and
        (NoDuplicateIn.inGuard ((quiet_watched storable).row hQ.holds hnone _))).mono ?_ fun _ _ he => he.2)
      rintro root₁ s₁ ⟨⟨hs₁, -, -, hturn₁⟩, -⟩
      obtain ⟨P₁, hP₁, -⟩ := hturn₁.next
      have hstate₁ : s₁.state = s.state := by rw [hs₁]
      refine wp_bind.mpr (((wlp_indexUpdateRow (hstate₁.symm ▸ hP₁)).and
        (NoDuplicateIn.indexUpdateRow (quiet_watched storable) _ _ s₁)).mono ?_ fun _ _ he => he.2)
      rintro _ s₂ ⟨⟨-, M₂, hedit, hturn₂⟩, -⟩
      obtain ⟨P₂, hP₂, -⟩ := hturn₂.next
      refine ih hP₂ fun id row hrow => ?_
      rw [hedit.rows] at hrow
      dsimp only at hrow
      by_cases hid : id = next
      · rw [hid]
        exact lt_of_addOne hnext
      · rw [Function.update_of_ne hid] at hrow
        exact (hbelow id row hrow).trans (lt_of_addOne hnext)

/-- **`insert_many` gives out new ids** and does not fail with `DuplicateKey`. -/
theorem wp_insertMany_rowids {datas : List RowData}
    (h : TableAt s.state.rootPage s.state.indexes M s.file P)
    (hstore : ∀ id row, storable id row → Storable id row)
    (hbelow : ∀ id row, M.rows id = some row → id < s.state.nextRowid) :
    wp (Session.insertMany (.watched storable) datas)
      (fun ids _ => Ascend s.state.nextRowid ids) (fun e _ => e.OtherThanDuplicate) s := by
  unfold Session.insertMany
  refine wp_get_bind.mpr ?_
  rw [forM_lift]
  have hchecks : NoDuplicate (datas.forM (Session.enforceIndexTypes s.state)) :=
    .forM (fun _ => .enforceIndexTypes _ _) _
  refine wp_lift_bind hchecks fun _ _ => ?_
  refine wp_bind.mpr ((wlp_insertManyLoop_rowids.and
    (insertManyLoop_noDuplicate h hstore hbelow)).mono ?_ fun _ _ he => he.2)
  rintro res s₁ ⟨⟨new, hids, hnew⟩, -⟩
  rw [List.nil_append] at hids
  refine wp_bind.mpr ((NoDuplicateIn.commitWrite s₁).mono (fun _ s₂ _ => ?_) fun _ _ he => he)
  refine wp_lift_bind (.addCount _ _) fun _ _ => ?_
  show Ascend _ res.2.2
  rw [hids]
  exact hnew

/-- **`insert` gives out the next id** and does not fail with `DuplicateKey`. -/
theorem wp_insert_rowids {data : RowData}
    (h : TableAt s.state.rootPage s.state.indexes M s.file P)
    (hbelow : ∀ id row, M.rows id = some row → id < s.state.nextRowid) :
    wp (Session.insert .code data) (fun id _ => id = s.state.nextRowid)
      (fun e _ => e.OtherThanDuplicate) s := by
  obtain ⟨Q, hQ, -⟩ := h.rowsTree
  have hnone : M.rows s.state.nextRowid = none := by
    by_contra hrow
    obtain ⟨row, hrow⟩ := Option.ne_none_iff_exists'.mp hrow
    exact lt_irrefl _ (hbelow _ row hrow)
  exact (wlp_insert_rowid.and (NoDuplicateIn.insertOf quiet_code hQ.holds hnone data)).mono
    (fun _ _ hQ => hQ.1) fun _ _ he => he.2

end

/-! ## Insertions in a transaction -/

section

variable [Crc32Fast] {storable : UInt64 → List UInt8 → Prop} {keyed : Prop} {s : InTransaction}
  {Ms : String → TableModel} {name : String} {state : TableMeta}

/-- The next row id that a transaction has is free. -/
theorem TxInv.next_free (h : TxInv storable keyed s Ms)
    (hname : s.db.tables.lookup name = some state) :
    (Ms name).rows (s.tx.currentNextRowid name state) = none := by
  obtain ⟨htable, -⟩ := h.table hname
  rw [h.currentNextRowid_eq hname]
  by_contra hrow
  obtain ⟨row, hrow⟩ := Option.ne_none_iff_exists'.mp hrow
  exact lt_irrefl _ (htable.inv.below _ row hrow)

/-- **`insert` in a transaction gives out the next id** and does not fail with
`DuplicateKey`. -/
theorem wp_txInsert_rowids {w : TreeWriters} {data : RowData} (hw : Quiet w)
    (h : TxInv storable keyed s Ms) (hname : s.db.tables.lookup name = some state) :
    wp (InTransaction.insert w name data) (fun id _ => id = (s.tx.seen name state).nextRowid)
      (fun e _ => e.OtherThanDuplicate) s := by
  rw [← h.currentNextRowid_eq hname]
  have hquiet : NoDuplicateAt (InTransaction.insert w name data) s := by
    obtain ⟨-, P, hP, -⟩ := h.table hname
    obtain ⟨Q, hQ, -⟩ := hP.rowsTree
    have hholds := hQ.holds
    rw [← currentRoot_eq] at hholds
    unfold InTransaction.insert
    refine wp_bind.mpr ((wp_of_ok (tableState_ok hname)).mpr ?_)
    refine lift_bind (.enforceIndexTypes _ _) fun _ _ => wp_get_bind.mpr (wp_bind.mpr ?_)
    exact (insertAs hw hholds (h.next_free hname) (.addOne _) data).mono
      (fun _ _ _ => trivial) fun _ _ he => he
  exact ((wlp_txInsert_rowid hname).and hquiet).mono (fun _ _ hQ => hQ.1) fun _ _ he => he.2

/-- **`insert_many` in a transaction.** -/
theorem wp_txInsertMany_rowids {rows : List RowData} (h : TxInv storable keyed s Ms)
    (hstore : ∀ id row, storable id row → Storable id row)
    (hname : s.db.tables.lookup name = some state) :
    wp (InTransaction.insertMany (.watched storable) name rows)
      (fun ids _ => Ascend (s.tx.seen name state).nextRowid ids)
      (fun e _ => e.OtherThanDuplicate) s := by
  unfold InTransaction.insertMany
  induction rows generalizing s Ms with
  | nil => exact Ascend.nil _
  | cons data rows ih =>
      rw [List.mapM_cons]
      refine wp_bind.mpr (((wlp_txInsert h hstore).and
        (wp_txInsert_rowids (quiet_watched storable) h hname)).mono ?_ fun _ _ he => he.2)
      rintro id s₁ ⟨⟨state', Ms', -, hinserted⟩, hid⟩
      have hstate : state' = state := Option.some.inj (hinserted.named.symm.trans hname)
      subst hstate
      have hname₁ : s₁.db.tables.lookup name = some state' := by rw [hinserted.moves.db, hname]
      refine wp_bind.mpr ((ih hinserted.inv hname₁).mono (fun ids _ hids => ?_) fun _ _ he => he)
      rw [← hid]
      exact hids.cons hinserted.next

theorem commit_noDuplicate : NoDuplicateIn InTransaction.commit := by
  intro s
  cases hx : InTransaction.commit s with
  | ok a s' => exact (wp_of_ok hx).mpr trivial
  | error e s' =>
      refine (wp_of_error hx).mpr ?_
      unfold InTransaction.commit at hx
      split at hx
      · cases hx
      · dsimp only at hx
        split at hx
        · cases hx
        · rename_i hcommit
          cases hx
          exact NoDuplicateIn.commitFile hcommit

end

/-! ## Calls -/

section

variable [Crc32Fast] {storable : UInt64 → List UInt8 → Prop} {keyed : Prop} {db : Db}
  {Ms : String → TableModel} {name : String} {state : TableMeta}

omit [Crc32Fast] in
/-- Under the lock of a table. -/
theorem wp_withTable {α : Type} {x : StateResult Session α} {Q : α → Prop}
    {E : Fault → Prop} (hname : db.tables.lookup name = some state)
    (h : wp x (fun a _ => Q a) (fun e _ => E e) (db.session state)) :
    wp (Db.withTable name x) (fun a _ => Q a) (fun e _ => E e) db := by
  rw [wp] at h ⊢
  unfold Db.withTable
  rw [hname]
  dsimp only
  unfold Db.session at h
  cases hx : x ⟨state, db.file, db.wal, db.durability, db.maxRowSize⟩ with
  | ok a s =>
      rw [hx] at h
      exact h
  | error e s =>
      rw [hx] at h
      exact h

/-- In a transaction of its own. -/
theorem wp_inTransaction {α : Type} {x : StateResult InTransaction α} {Q : α → Prop}
    (h : wp x (fun a _ => Q a) (fun e _ => e.OtherThanDuplicate) db.beginAcid) :
    wp (Db.inTransaction x) (fun a _ => Q a) (fun e _ => e.OtherThanDuplicate) db := by
  have hall : wp (do let a ← x; InTransaction.commit; pure a) (fun a _ => Q a)
      (fun e _ => e.OtherThanDuplicate) ⟨db, .new⟩ := by
    refine wp_bind.mpr (wp.mono h (fun a s hQ => ?_) fun _ _ he => he)
    exact wp_bind.mpr ((commit_noDuplicate s).mono (fun _ _ _ => hQ) fun _ _ he => he)
  rw [wp] at hall ⊢
  unfold Db.inTransaction
  cases hx : (do let a ← x; InTransaction.commit; pure a : StateResult InTransaction α)
      ⟨db, .new⟩ with
  | ok a s =>
      rw [hx] at hall
      exact hall
  | error e s =>
      rw [hx] at hall
      exact hall

/-- A row operation, in either mode. -/
theorem wp_perform {w : TreeWriters} {call : RowCall} {Q : Reply → Prop}
    (hname : db.tables.lookup name = some state)
    (hplace : wp (call.inPlace w) (fun r _ => Q r) (fun e _ => e.OtherThanDuplicate)
      (db.session state))
    (htx : wp (call.inTransaction w name) (fun r _ => Q r) (fun e _ => e.OtherThanDuplicate)
      db.beginAcid) :
    wp (Call.perform w (.row name call)) (fun r _ => Q r) (fun e _ => e.OtherThanDuplicate) db := by
  show wp (RowCall.perform w name call) _ _ _
  unfold RowCall.perform
  refine wp_get_bind.mpr (wp_ite (fun _ => wp_inTransaction htx) fun _ => ?_)
  exact wp_withTable hname hplace

end

/-! ## Ids that a table had -/

section

variable [Crc32Fast] {storable : UInt64 → List UInt8 → Prop} {keyed : Prop} {db : Db}
  {Ms : String → TableModel} {name : String} {state : TableMeta} {id : UInt64}

/-- The table has a row with the id. -/
def Db.Uses (db : Db) (name : String) (id : UInt64) : Prop :=
  ∃ state row, db.tables.lookup name = some state ∧
    BTreeReader.search db.file state.rootPage id = .ok (some row)

/-- The transaction sees a row of the table with the id. -/
def InTransaction.Uses (s : InTransaction) (name : String) (id : UInt64) : Prop :=
  ∃ state row, s.db.tables.lookup name = some state ∧
    BTreeWriter.search s.guard (s.tx.currentRoot name state) id = .ok (some row)

/-- The table had a row with the id, in a state of the run or in a transaction that was
committed, and it has been there since. -/
inductive EverStored (storable : UInt64 → List UInt8 → Prop) (keyed : Prop) (name : String)
    (id : UInt64) : Db → Prop
  | row {db : Db} (hreaches : Reaches storable keyed db) (huses : db.Uses name id) :
      EverStored storable keyed name id db
  | committed {db : Db} {s₁ s₂ s₃ : InTransaction} (hreaches : Reaches storable keyed db)
      (hrun₁ : TxRun storable db.beginAcid s₁) (huses : s₁.Uses name id)
      (hrun₂ : TxRun storable s₁ s₂) (hcommit : InTransaction.commit s₂ = .ok () s₃) :
      EverStored storable keyed name id s₃.db
  | step {db db' : Db} (hstored : EverStored storable keyed name id db)
      (hstep : DbStep storable keyed db db') (hstays : (db'.tables.lookup name).isSome) :
      EverStored storable keyed name id db'

theorem DbInv.lt_of_uses (h : DbInv storable keyed db Ms) (huses : db.Uses name id)
    (hname : db.tables.lookup name = some state) : id < state.nextRowid := by
  obtain ⟨state', row, hname', hsearch⟩ := huses
  obtain rfl := Option.some.inj (hname.symm.trans hname')
  obtain ⟨started, hok⟩ := h.ok
  obtain ⟨htable, P, hP, -⟩ := hok.table hname
  obtain ⟨Q, hQ, -⟩ := hP.rowsTree
  rw [hQ.holds.search h.clean] at hsearch
  exact htable.inv.below id row (Except.ok.inj hsearch)

theorem TxInv.lt_of_uses {s : InTransaction} (h : TxInv storable keyed s Ms)
    (huses : s.Uses name id) (hname : s.db.tables.lookup name = some state) :
    id < (s.tx.seen name state).nextRowid := by
  obtain ⟨state', row, hname', hsearch⟩ := huses
  obtain rfl := Option.some.inj (hname.symm.trans hname')
  obtain ⟨htable, P, hP, -⟩ := h.table hname
  rw [currentRoot_eq, search_guard hP] at hsearch
  exact htable.inv.below id row (Except.ok.inj hsearch)

/-- **The next row id is above every id that the table ever had.** -/
theorem EverStored.lt (hstore : ∀ id row, storable id row → Storable id row)
    (h : EverStored storable keyed name id db) :
    Reaches storable keyed db ∧
    ∃ state, db.tables.lookup name = some state ∧ id < state.nextRowid := by
  induction h with
  | row hreaches huses =>
      obtain ⟨Ms, hinv⟩ := hreaches.inv hstore
      obtain ⟨state, row, hname, hsearch⟩ := huses
      exact ⟨hreaches, state, hname, hinv.lt_of_uses ⟨state, row, hname, hsearch⟩ hname⟩
  | @committed db s₁ s₂ s₃ hreaches hrun₁ huses hrun₂ hcommit =>
      obtain ⟨Ms, hinv⟩ := hreaches.inv hstore
      obtain ⟨hmoves₁, Ms₁, hinv₁⟩ := TxRun.inv hinv.beginAcid hstore hrun₁
      obtain ⟨hmoves₂, Ms₂, hinv₂⟩ := TxRun.inv hinv₁ hstore hrun₂
      obtain ⟨-, hdb⟩ := (wlp_txCommit hinv₂).ok hcommit
      obtain ⟨state, row, hname, hsearch⟩ := huses
      have hlt := hinv₁.lt_of_uses ⟨state, row, hname, hsearch⟩ hname
      have hreaches₃ : Reaches storable keyed s₃.db := by
        obtain ⟨new, hopen, hrun⟩ := hreaches
        exact ⟨new, hopen, hrun.tail (.committed (hrun₁.trans hrun₂) hcommit)⟩
      refine ⟨hreaches₃, s₂.tx.seen name state, ?_, hlt.trans_le (hmoves₂.next name state hname)⟩
      rw [hdb]
      show s₂.seenTables.lookup name = _
      rw [s₂.lookup_seenTables, hmoves₂.db, hname]
      rfl
  | @step db db' hstored hstep hstays ih =>
      obtain ⟨⟨new, hopen, hrun⟩, state, hname, hlt⟩ := ih
      obtain ⟨Ms, hinv⟩ := Reaches.inv hstore ⟨new, hopen, hrun⟩
      obtain ⟨state', hname'⟩ := Option.isSome_iff_exists.mp hstays
      refine ⟨⟨new, hopen, hrun.tail hstep⟩, state', hname', hlt.trans_le ?_⟩
      exact (hstep.moves hinv hstore).next name state state' hname hname'

/-! ## What insertions do -/

omit [Crc32Fast] in
/-- The id after `id` can be computed, but for the last one. -/
theorem exists_addOne_iff :
    (∃ next, addOne id = .ok next ∧ id < next) ↔ id.toNat ≠ 2 ^ 64 - 1 := by
  unfold addOne
  have hlt := id.toNat_lt
  constructor
  · rintro ⟨next, hnext, -⟩ hlast
    rw [if_neg (by omega)] at hnext
    cases hnext
  · intro hlast
    refine ⟨id + 1, if_pos (by omega), lt_of_addOne (if_pos (by omega))⟩

/-- The ids of a table are given out once: the next one is above those in `used`, insertions
take it and do not find it in use, and it can be moved past every id but the last. -/
structure FreshIds (storable : UInt64 → List UInt8 → Prop) (db : Db) (name : String)
    (state : TableMeta) (used : UInt64 → Prop) : Prop where
  below : ∀ id, used id → id < state.nextRowid
  free : BTreeReader.search db.file state.rootPage state.nextRowid = .ok none
  insert : ∀ data, wp (Call.perform .code (.row name (.insert data)))
    (fun r _ => r = .rowid state.nextRowid) (fun e _ => e.OtherThanDuplicate) db
  insertMany : ∀ rows, wp (Call.perform (.watched storable) (.row name (.insertMany rows)))
    (fun r _ => ∃ ids, r = .rowids ids ∧ Ascend state.nextRowid ids)
    (fun e _ => e.OtherThanDuplicate) db
  moved : ∀ id : UInt64, (∃ next, addOne id = .ok next ∧ id < next) ↔ id.toNat ≠ 2 ^ 64 - 1

/-- The same of a table in a transaction. -/
structure InTransaction.FreshIds (storable : UInt64 → List UInt8 → Prop) (s : InTransaction)
    (name : String) (state : TableMeta) (used : UInt64 → Prop) : Prop where
  below : ∀ id, used id → id < (s.tx.seen name state).nextRowid
  free : BTreeWriter.search s.guard (s.tx.currentRoot name state)
    (s.tx.seen name state).nextRowid = .ok none
  insert : ∀ data, wp (InTransaction.insert .code name data)
    (fun id _ => id = (s.tx.seen name state).nextRowid) (fun e _ => e.OtherThanDuplicate) s
  insertMany : ∀ rows, wp (InTransaction.insertMany (.watched storable) name rows)
    (fun ids _ => Ascend (s.tx.seen name state).nextRowid ids)
    (fun e _ => e.OtherThanDuplicate) s

theorem TxInv.freshIds {s : InTransaction} {used : UInt64 → Prop}
    (h : TxInv storable keyed s Ms) (hstore : ∀ id row, storable id row → Storable id row)
    (hname : s.db.tables.lookup name = some state)
    (hused : ∀ id, used id → id < (s.tx.seen name state).nextRowid) :
    s.FreshIds storable name state used := by
  refine ⟨hused, ?_, fun data => wp_txInsert_rowids quiet_code h hname,
    fun rows => wp_txInsertMany_rowids h hstore hname⟩
  obtain ⟨-, P, hP, -⟩ := h.table hname
  rw [currentRoot_eq, search_guard hP, ← h.currentNextRowid_eq hname, h.next_free hname]

omit [Crc32Fast] in
theorem wp_replied {σ α β : Type} {reply : α → β} {x : StateResult σ α} {s : σ} {Q : α → σ → Prop}
    {R : β → σ → Prop} {E : Fault → σ → Prop} (h : wp x Q E s) (hR : ∀ a s', Q a s' → R (reply a) s') :
    wp (x >>= fun a => pure (reply a)) R E s :=
  wp_bind.mpr (h.mono hR fun _ _ he => he)

theorem DbInv.freshIds {used : UInt64 → Prop} (h : DbInv storable keyed db Ms)
    (hstore : ∀ id row, storable id row → Storable id row)
    (hname : db.tables.lookup name = some state)
    (hused : ∀ id, used id → id < state.nextRowid) : FreshIds storable db name state used := by
  obtain ⟨started, hok⟩ := h.ok
  obtain ⟨htable, P, hP, -⟩ := hok.table hname
  have htx := (h.beginAcid).freshIds hstore hname hused
  refine ⟨hused, ?_, fun data => ?_, fun rows => ?_, fun _ => exists_addOne_iff⟩
  · obtain ⟨Q, hQ, -⟩ := hP.rowsTree
    rw [hQ.holds.search h.clean]
    refine congrArg Except.ok ?_
    by_contra hrow
    obtain ⟨row, hrow⟩ := Option.ne_none_iff_exists'.mp hrow
    exact lt_irrefl _ (htable.inv.below _ row hrow)
  · refine wp_perform hname ?_ ?_
    · exact wp_replied (wp_insert_rowids hP htable.inv.below) fun id _ hid => congrArg Reply.rowid hid
    · exact wp_replied (htx.insert data) fun id _ hid => congrArg Reply.rowid hid
  · refine wp_perform hname ?_ ?_
    · exact wp_replied (wp_insertMany_rowids hP hstore htable.inv.below) fun ids _ hids => ⟨ids, rfl, hids⟩
    · exact wp_replied (htx.insertMany rows) fun ids _ hids => ⟨ids, rfl, hids⟩

/-- **Row ids are given out once**, in every state of a run and in every transaction opened
there. -/
theorem Reaches.rowids (hstore : ∀ id row, storable id row → Storable id row)
    (h : Reaches storable keyed db) (hname : db.tables.lookup name = some state) :
    FreshIds storable db name state (fun id => EverStored storable keyed name id db) ∧
    ∀ s, TxRun storable db.beginAcid s → s.FreshIds storable name state fun id =>
      EverStored storable keyed name id db ∨
        ∃ s₀ : InTransaction, TxRun storable db.beginAcid s₀ ∧ s₀.Uses name id ∧
          TxRun storable s₀ s := by
  obtain ⟨Ms, hinv⟩ := h.inv hstore
  have hbelow : ∀ id, EverStored storable keyed name id db → id < state.nextRowid := by
    intro id hid
    obtain ⟨-, state', hname', hlt⟩ := hid.lt hstore
    obtain rfl := Option.some.inj (hname.symm.trans hname')
    exact hlt
  refine ⟨hinv.freshIds hstore hname hbelow, fun s hrun => ?_⟩
  obtain ⟨hmoves, Ms', htx⟩ := TxRun.inv hinv.beginAcid hstore hrun
  have hname' : s.db.tables.lookup name = some state := by rw [hmoves.db]; exact hname
  refine htx.freshIds hstore hname' fun id hid => ?_
  rcases hid with hid | ⟨s₀, hrun₀, huses, hrun₁⟩
  · exact (hbelow id hid).trans_le (hmoves.next name state hname)
  · obtain ⟨hmoves₀, Ms₀, htx₀⟩ := TxRun.inv hinv.beginAcid hstore hrun₀
    obtain ⟨hmoves₁, -⟩ := TxRun.inv htx₀ hstore hrun₁
    have hname₀ : s₀.db.tables.lookup name = some state := by rw [hmoves₀.db]; exact hname
    exact (htx₀.lt_of_uses huses hname₀).trans_le (hmoves₁.next name state hname₀)

/-- `insert_with_id` computes the next row id, after any calls. -/
def RowidsComputedAfterCalls : Prop :=
  ∀ db calls name rowid data db', Db.open ⟨[], []⟩ = .ok db →
    Call.perform .code (.row name (.insertWithId rowid data)) (db.after calls) ≠
      .error .overflow db'

end

/-- The ids of a table after an id that was refused and a transaction. -/
theorem rowids_numbers : letI := crc32Ieee
    ∃ (db : Db) (t : TableMeta), db.tables.lookup "t" = some t ∧ t.nextRowid = 3 ∧
      FreshIds Storable db "t" t fun id => EverStored Storable True "t" id db := by
  let := crc32Ieee
  obtain ⟨db, t, -, hreaches, ⟨ht, -, hnext, -⟩, -, -⟩ := numbersRun_ends
  exact ⟨db, t, ht, hnext, (Reaches.rowids (fun _ _ hrow => hrow) hreaches ht).1⟩

/-- A call was stopped by an overflow. -/
def stoppedByOverflow {α : Type} : EStateM.Result Fault Db α → Bool
  | .error .overflow _ => true
  | _ => false

/-- The last row id has no id after it. -/
theorem not_rowids_computed : ¬ @RowidsComputedAfterCalls crc32Ieee := by
  let := crc32Ieee
  intro h
  have hoverflow : stoppedByOverflow (Call.perform .code (.row "t" (.insertWithId
      (UInt64.ofNat (2 ^ 64 - 1)) [("flag", .boolean true)])) (newDb.after [createFlags])) = true := by
    decide +kernel
  unfold stoppedByOverflow at hoverflow
  split at hoverflow
  · rename_i db' hrun
    exact h newDb [createFlags] "t" _ _ db' open_new hrun
  · cases hoverflow

end BoogyDb
