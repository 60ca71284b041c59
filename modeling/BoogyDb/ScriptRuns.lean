import BoogyDb.CheckedRuns
import BoogyDb.TableContents

/-!
# Scripts of row operations

A script is a list of row operations.  It can be run call by call, outside ACID mode or in it,
or as one transaction.  In each way, a run that returns does to the contents of the tables what
the effects of its operations do one after the other (`Reaches.plan_run`); so the way makes
no difference to what the calls return and to what the tables contain.
-/

namespace BoogyDb

open Bytes Wp WriteGuard FencedTree Ownership Simulation

section

variable [Crc32Fast] {storable : UInt64 → List UInt8 → Prop} {keyed : Prop}
  {s s' : InTransaction} {Ms Ms' : String → TableModel} {table : String} {state : TableMeta}
  {α : Type}

/-! ## What a transaction notes about the other tables -/

/-- What a transaction has noted about the tables other than `table` is the same. -/
def SameOthers (table : String) (s s' : InTransaction) : Prop :=
  ∀ other, other ≠ table → s'.tx.metaDeltas.lookup other = s.tx.metaDeltas.lookup other

/-- A program that notes something about one table alone. -/
abbrev NotesOne (table : String) (x : StateResult InTransaction α) : Prop :=
  Within (SameOthers table) x

omit [Crc32Fast] in
theorem SameOthers.of_eq (h : s'.tx.metaDeltas = s.tx.metaDeltas) : SameOthers table s s' :=
  fun _ _ => by rw [h]

namespace NotesOne

variable {β : Type}

omit [Crc32Fast] in
theorem bind {x : StateResult InTransaction α} {f : α → StateResult InTransaction β}
    (hx : NotesOne table x) (hf : ∀ a, NotesOne table (f a)) : NotesOne table (x >>= f) :=
  within_bind (fun h h' other hne => (h' other hne).trans (h other hne)) hx hf

omit [Crc32Fast] in
theorem pure (a : α) : NotesOne table (pure a) :=
  within_pure (R := SameOthers table) (fun _ _ _ => rfl) a

omit [Crc32Fast] in
theorem throw (e : Fault) : NotesOne table (throw e : StateResult InTransaction α) :=
  within_throw (R := SameOthers table) (fun _ _ _ => rfl) e

omit [Crc32Fast] in
theorem get : NotesOne table (get : StateResult InTransaction InTransaction) :=
  within_get fun _ _ _ => rfl

omit [Crc32Fast] in
theorem lift (x : Result α) : NotesOne table (liftM x : StateResult InTransaction α) := by
  intro s
  cases x <;> exact fun _ _ => rfl

omit [Crc32Fast] in
theorem withGuard (f : StateResult WriteGuard α) : NotesOne table (InTransaction.withGuard f) := by
  intro s
  rw [wp, InTransaction.withGuard]
  cases f s.guard with
  | ok a g => exact fun _ _ => rfl
  | error e g =>
      dsimp only
      split <;> exact fun _ _ => rfl

omit [Crc32Fast] in
theorem changeDelta (fresh : MetaDelta) (f : MetaDelta → MetaDelta) :
    NotesOne table (InTransaction.changeDelta table fresh f) := fun _ _ hne =>
  AList.lookup_insert_ne hne

omit [Crc32Fast] in
theorem tableState : NotesOne table (InTransaction.tableState table) := by
  refine get.bind fun s => ?_
  cases s.db.tables.lookup table with
  | none => exact throw _
  | some state => exact pure _

omit [Crc32Fast] in
theorem forM {γ : Type} {f : γ → StateResult InTransaction PUnit} (l : List γ)
    (hf : ∀ a, NotesOne table (f a)) : NotesOne table (l.forM f) :=
  within_forM (fun _ _ _ => rfl) (fun h h' other hne => (h' other hne).trans (h other hne)) l hf

omit [Crc32Fast] in
theorem filterMapM {γ : Type} {f : γ → StateResult InTransaction (Option α)} (l : List γ)
    (hf : ∀ a, NotesOne table (f a)) : NotesOne table (l.filterMapM f) :=
  within_filterMapM (fun _ _ _ => rfl) (fun h h' other hne => (h' other hne).trans (h other hne)) l hf

theorem enforceUniqueIndexesAcid (state : TableMeta) (bytes : List UInt8) :
    NotesOne table (InTransaction.enforceUniqueIndexesAcid table state bytes) := by
  refine get.bind fun s => (forM _ fun idx => lift _).bind fun _ => ?_
  refine (filterMapM _ fun idx => (lift _).bind fun _ => pure _).bind fun seen => ?_
  exact fun s other _ => rfl

variable (w : TreeWriters)

theorem insertAs (state : TableMeta) (rowid : UInt64) (data : RowData) (freshNext : UInt64)
    (nextRowid : Result UInt64) :
    NotesOne table (InTransaction.insertAs w table state rowid data freshNext nextRowid) := by
  refine get.bind fun s => WithinOr.ite (throw _) ?_
  refine (enforceUniqueIndexesAcid _ _).bind fun _ => (withGuard _).bind fun roots => ?_
  exact (lift _).bind fun _ => changeDelta _ _

theorem insert (data : RowData) : NotesOne table (InTransaction.insert w table data) :=
  tableState.bind fun _ => (lift _).bind fun _ => get.bind fun _ =>
    (insertAs w _ _ _ _ _).bind fun _ => pure _

theorem insertWithId (rowid : UInt64) (data : RowData) :
    NotesOne table (InTransaction.insertWithId w table rowid data) :=
  tableState.bind fun _ => (lift _).bind fun _ => get.bind fun _ => insertAs w _ _ _ _ _

theorem update (id : UInt64) (fields : RowData) :
    NotesOne table (InTransaction.update w table id fields) := by
  refine tableState.bind fun state => (lift _).bind fun _ => get.bind fun s => ?_
  refine (withGuard _).bind fun merged => ?_
  exact WithinOr.ite ((changeDelta _ _).bind fun _ => pure _) ((pure _).bind fun _ => pure _)

theorem delete (id : UInt64) : NotesOne table (InTransaction.delete table id) := by
  refine tableState.bind fun state => get.bind fun s => (withGuard _).bind fun removed => ?_
  exact WithinOr.ite ((changeDelta _ _).bind fun _ => pure _) ((pure _).bind fun _ => pure _)

end NotesOne

/-! ## The next row id in a transaction -/

omit [Crc32Fast] in
theorem currentNextRowid_insert (tx : AcidTransaction) (delta : MetaDelta) :
    ({ tx with metaDeltas := tx.metaDeltas.insert table delta } :
      AcidTransaction).currentNextRowid table state = delta.nextRowid := by
  unfold AcidTransaction.currentNextRowid
  dsimp only
  rw [AList.lookup_insert]
  rfl

omit [Crc32Fast] in
/-- A change of the delta that leaves its next row id. -/
theorem wlp_changeDelta_next {root : ℕ} {id : UInt32} {f : MetaDelta → MetaDelta}
    (hf : ∀ delta, (f delta).nextRowid = delta.nextRowid) :
    wlp (InTransaction.changeDelta table
      ⟨root, 0, s.tx.currentNextRowid table state, id, []⟩ f)
      (fun _ s' => s'.tx.currentNextRowid table state = s.tx.currentNextRowid table state) s := by
  show ({ s.tx with metaDeltas := s.tx.metaDeltas.insert table _ } :
    AcidTransaction).currentNextRowid table state = _
  rw [currentNextRowid_insert, hf]
  unfold AcidTransaction.currentNextRowid
  cases s.tx.metaDeltas.lookup table with
  | none => rfl
  | some delta => rfl

omit [Crc32Fast] in
/-- What runs under the guard notes nothing. -/
theorem wlp_withGuard_notes (f : StateResult WriteGuard α) :
    wlp (InTransaction.withGuard f) (fun _ s' => s'.tx.metaDeltas = s.tx.metaDeltas) s := by
  show wp _ _ _ _
  rw [wp, InTransaction.withGuard]
  cases f s.guard with
  | ok a g => exact rfl
  | error e g => exact trivial

omit [Crc32Fast] in
theorem currentNextRowid_congr {tx tx' : AcidTransaction} (h : tx'.metaDeltas = tx.metaDeltas) :
    tx'.currentNextRowid table state = tx.currentNextRowid table state := by
  unfold AcidTransaction.currentNextRowid
  rw [h]

theorem wlp_insertAs_next {w : TreeWriters} {rowid freshNext : UInt64} {data : RowData}
    {nextRowid : Result UInt64} :
    wlp (InTransaction.insertAs w table state rowid data freshNext nextRowid) (fun _ s' =>
      nextRowid = .ok (s'.tx.currentNextRowid table state)) s := by
  unfold InTransaction.insertAs
  refine wlp_get_bind.mpr (wlp_ite (fun _ => wlp_throw) fun _ => ?_)
  refine wp.bind wlp_true fun _ s₁ _ => wp.bind wlp_true fun roots s₂ _ => ?_
  refine wlp_lift_bind fun next hnext => ?_
  show nextRowid = .ok (({ s₂.tx with metaDeltas := s₂.tx.metaDeltas.insert table _ } :
    AcidTransaction).currentNextRowid table state)
  rw [currentNextRowid_insert, hnext]

theorem wlp_txInsert_next {w : TreeWriters} {data : RowData}
    (hname : s.db.tables.lookup table = some state) :
    wlp (InTransaction.insert w table data) (fun rowid s' =>
      rowid = s.tx.currentNextRowid table state ∧
        addOne (s.tx.currentNextRowid table state) =
          .ok (s'.tx.currentNextRowid table state)) s := by
  unfold InTransaction.insert
  refine wp.bind wlp_tableState ?_
  rintro state' s₁ ⟨rfl, hname'⟩
  rw [hname] at hname'
  obtain rfl := Option.some.inj hname'
  refine wlp_lift_bind fun _ _ => wlp_get_bind.mpr (wp.bind wlp_insertAs_next ?_)
  exact fun _ s₂ hnext => ⟨rfl, hnext⟩

theorem wlp_txInsertWithId_next {w : TreeWriters} {rowid : UInt64} {data : RowData}
    (hname : s.db.tables.lookup table = some state) :
    wlp (InTransaction.insertWithId w table rowid data) (fun _ s' =>
      TableContents.nextAfter (s.tx.currentNextRowid table state) rowid =
        .ok (s'.tx.currentNextRowid table state)) s := by
  unfold InTransaction.insertWithId
  refine wp.bind wlp_tableState ?_
  rintro state' s₁ ⟨rfl, hname'⟩
  rw [hname] at hname'
  obtain rfl := Option.some.inj hname'
  exact wlp_lift_bind fun _ _ => wlp_get_bind.mpr wlp_insertAs_next

theorem wlp_txUpdate_next {w : TreeWriters} {id : UInt64} {fields : RowData}
    (hname : s.db.tables.lookup table = some state) :
    wlp (InTransaction.update w table id fields) (fun _ s' =>
      s'.tx.currentNextRowid table state = s.tx.currentNextRowid table state) s := by
  unfold InTransaction.update
  refine wp.bind wlp_tableState ?_
  rintro state' s₁ ⟨rfl, hname'⟩
  rw [hname] at hname'
  obtain rfl := Option.some.inj hname'
  refine wlp_lift_bind fun _ _ => wlp_get_bind.mpr (wp.bind (wlp_withGuard_notes _) ?_)
  rintro ⟨updated, root, roots⟩ s₂ hnotes
  have hsame := @currentNextRowid_congr table state _ _ hnotes
  rw [← hsame]
  refine wlp_ite (fun _ => ?_) fun _ => ?_
  · exact wp.bind (wlp_changeDelta_next fun _ => rfl) fun _ _ hnext => hnext
  · exact rfl

theorem wlp_txDelete_next {id : UInt64} (hname : s.db.tables.lookup table = some state) :
    wlp (InTransaction.delete table id) (fun _ s' =>
      s'.tx.currentNextRowid table state = s.tx.currentNextRowid table state) s := by
  unfold InTransaction.delete
  refine wp.bind wlp_tableState ?_
  rintro state' s₁ ⟨rfl, hname'⟩
  rw [hname] at hname'
  obtain rfl := Option.some.inj hname'
  refine wlp_get_bind.mpr (wp.bind (wlp_withGuard_notes _) ?_)
  rintro ⟨deleted, roots⟩ s₂ hnotes
  have hsame := @currentNextRowid_congr table state _ _ hnotes
  rw [← hsame]
  refine wlp_ite (fun _ => ?_) fun _ => ?_
  · exact wp.bind (wlp_changeDelta_next fun _ => rfl) fun _ _ hnext => hnext
  · exact rfl

/-! ## Operations of a transaction -/

/-- The contents that a transaction sees, of one table. -/
theorem TxInv.contents_table (h : TxInv storable keyed s Ms)
    (hname : s.db.tables.lookup table = some state) : s.contents table =
      some ⟨columnValues state, (Ms table).rows, s.tx.currentNextRowid table state⟩ := by
  have hvalues : columnValues (s.tx.seen table state) = columnValues state :=
    funext fun data => columnValues_congr (h.seen_sameSchema hname) data
  rw [h.contents_eq, contentsOf, s.lookup_seenTables, hname, Option.map_some, Option.map_some,
    hvalues, h.currentNextRowid_eq hname]

/-- The contents after an operation on one table. -/
theorem TxInv.contents_step (h : TxInv storable keyed s Ms) (h' : TxInv storable keyed s' Ms')
    (hdb : s'.db = s.db) (hname : s.db.tables.lookup table = some state)
    (hmodels : ∀ other, other ≠ table → Ms' other = Ms other) (hnotes : SameOthers table s s') :
    s'.contents = Function.update s.contents table
      (some ⟨columnValues state, (Ms' table).rows, s'.tx.currentNextRowid table state⟩) := by
  have hname' : s'.db.tables.lookup table = some state := by
    rw [hdb]
    exact hname
  funext other
  by_cases heq : other = table
  · subst heq
    rw [Function.update_self]
    exact h'.contents_table hname'
  · rw [Function.update_of_ne heq, h.contents_eq, h'.contents_eq, contentsOf, contentsOf,
      s.lookup_seenTables, s'.lookup_seenTables, hdb, hmodels other heq]
    unfold AcidTransaction.seen
    rw [hnotes other heq]

/-- What an operation of a transaction does, from what it does to the model of its table. -/
theorem refines_inTransaction_step {x : StateResult InTransaction α} {f : TableM α}
    (hnotes : NotesOne table x)
    (hx : ∀ (s : InTransaction) Ms, TxInv storable keyed s Ms →
      wlp x (fun a s' => ∃ state Ms', s.db.tables.lookup table = some state ∧ s'.db = s.db ∧
        TxInv storable keyed s' Ms' ∧ (∀ other, other ≠ table → Ms' other = Ms other) ∧
        f ⟨columnValues state, (Ms table).rows, s.tx.currentNextRowid table state⟩ =
          .ok (a, ⟨columnValues state, (Ms' table).rows, s'.tx.currentNextRowid table state⟩)) s) :
    Refines (InTransaction.Sound storable keyed) InTransaction.contents x (onTable table f) := by
  rintro s ⟨Ms, h⟩
  have hall := (hx s Ms h).and (wlp_of_wp (hnotes s))
  refine hall.mono ?_ fun _ _ _ => trivial
  rintro a s' ⟨⟨state, Ms', hname, hdb, h', hmodels, hf⟩, hsame⟩
  refine ⟨⟨Ms', h'⟩, ?_⟩
  rw [onTable, h.contents_table hname]
  dsimp only
  rw [hf, ok_bind, h.contents_step h' hdb hname hmodels hsame]
  rfl

variable (hstore : ∀ id row, storable id row → Storable id row)

include hstore

theorem refines_txInsert (data : RowData) :
    Refines (InTransaction.Sound storable keyed) InTransaction.contents
      (InTransaction.insert (.watched storable) table data)
      (onTable table (TableContents.insert data)) := by
  refine refines_inTransaction_step (NotesOne.insert _ data) fun s Ms h => ?_
  rw [wlp_iff]
  intro rowid s' hrun
  obtain ⟨state, Ms', -, hins⟩ := (wlp_txInsert h hstore).ok hrun
  obtain ⟨hid, hnext⟩ := (wlp_txInsert_next hins.named).ok hrun
  refine ⟨state, Ms', hins.named, hins.moves.db, hins.inv, hins.others, ?_⟩
  rw [TableContents.insert, hnext, ok_bind, hins.rows, hid]
  rfl

theorem refines_txInsertWithId (rowid : UInt64) (data : RowData) :
    Refines (InTransaction.Sound storable keyed) InTransaction.contents
      (InTransaction.insertWithId (.watched storable) table rowid data)
      (onTable table (TableContents.insertWithId rowid data)) := by
  refine refines_inTransaction_step (NotesOne.insertWithId _ rowid data) fun s Ms h => ?_
  rw [wlp_iff]
  intro _ s' hrun
  obtain ⟨state, Ms', hins⟩ := (wlp_txInsertWithId h hstore).ok hrun
  have hnext := (wlp_txInsertWithId_next hins.named).ok hrun
  refine ⟨state, Ms', hins.named, hins.moves.db, hins.inv, hins.others, ?_⟩
  rw [TableContents.insertWithId, hnext, ok_bind, hins.rows]
  rfl

theorem refines_txUpdate (id : UInt64) (fields : RowData) :
    Refines (InTransaction.Sound storable keyed) InTransaction.contents
      (InTransaction.update (.watched storable) table id fields)
      (onTable table (TableContents.update id fields)) := by
  refine refines_inTransaction_step (NotesOne.update _ id fields) fun s Ms h => ?_
  rw [wlp_iff]
  intro found s' hrun
  obtain ⟨state, hname, hfound, hmoves, -, hcase⟩ := (wlp_txUpdate h hstore).ok hrun
  have hnext := (wlp_txUpdate_next hname).ok hrun
  cases hid : (Ms table).rows id with
  | none =>
      rw [hid] at hfound hcase
      refine ⟨state, Ms, hname, hmoves.db, hcase, fun _ _ => rfl, ?_⟩
      rw [TableContents.update]
      dsimp only
      rw [hid, hnext, hfound]
      rfl
  | some old =>
      rw [hid] at hfound hcase
      obtain ⟨existing, row, M', hexisting, rfl, -, hrows, hinv⟩ := hcase
      refine ⟨state, _, hname, hmoves.db, hinv, fun other hne => Function.update_of_ne hne _ _, ?_⟩
      rw [TableContents.update]
      dsimp only
      rw [hid, hnext, hfound, Function.update_self, hrows]
      dsimp only
      rw [hexisting, ok_bind]
      rfl

omit hstore in
theorem refines_txDelete (id : UInt64) :
    Refines (InTransaction.Sound storable keyed) InTransaction.contents
      (InTransaction.delete table id) (onTable table (TableContents.delete id)) := by
  refine refines_inTransaction_step (NotesOne.delete id) fun s Ms h => ?_
  rw [wlp_iff]
  intro found s' hrun
  obtain ⟨state, hname, hfound, hmoves, -, hcase⟩ := (wlp_txDelete h).ok hrun
  have hnext := (wlp_txDelete_next hname).ok hrun
  cases hid : (Ms table).rows id with
  | none =>
      rw [hid] at hfound hcase
      have hsame : Function.update (Ms table).rows id none = (Ms table).rows :=
        Function.update_eq_self_iff.mpr hid.symm
      refine ⟨state, Ms, hname, hmoves.db, hcase, fun _ _ => rfl, ?_⟩
      rw [TableContents.delete]
      dsimp only
      rw [hid, hnext, hfound, hsame]
  | some old =>
      rw [hid] at hfound hcase
      obtain ⟨M', hrows, hinv⟩ := hcase
      refine ⟨state, _, hname, hmoves.db, hinv, fun other hne => Function.update_of_ne hne _ _, ?_⟩
      rw [TableContents.delete]
      dsimp only
      rw [hid, hnext, hfound, Function.update_self, hrows]

/-! ## Reads -/

omit [Crc32Fast] in
/-- A row in a sound table begins with its id. -/
theorem fromRaw_stored {t : TableMeta} {M : TableModel} {id : UInt64} {row : List UInt8}
    (h : TableOk storable keyed t M) (hrow : M.rows id = some row) :
    Row.fromRaw row = .ok ⟨id, row⟩ := by
  rw [Row.fromRaw, (hstore id row (h.inv.stored id row hrow)).id]
  rfl

omit [Crc32Fast] hstore in
theorem onTable_get {c : Contents} {t : TableContents} {id : UInt64} {row : Option (List UInt8)}
    (hc : c table = some t) (hrow : t.rows id = row) :
    onTable table (TableContents.get id) c = .ok (row.map (Row.mk id), c) := by
  rw [onTable, hc]
  show Except.ok ((t.rows id).map (Row.mk id), Function.update c table (some t)) = _
  rw [Function.update_eq_self_iff.mpr hc.symm, hrow]

/-- `BoogyDb::get`. -/
def Db.getRow (table : String) (id : UInt64) : StateResult Db (Option Row) := do
  let db ← get
  db.get? table id

theorem refines_getRow (id : UInt64) :
    Refines (Db.Sound storable keyed) Db.contents (Db.getRow table id)
      (onTable table (TableContents.get id)) := by
  rintro db ⟨Ms, h⟩
  refine wlp_get_bind.mpr (wlp_lift fun row hrow => ⟨⟨Ms, h⟩, ?_⟩)
  unfold Db.get? at hrow
  cases hname : db.tables.lookup table with
  | none =>
      rw [hname] at hrow
      cases hrow
  | some state =>
      rw [hname] at hrow
      obtain ⟨started, hok⟩ := h.ok
      obtain ⟨htable, P, hP, -⟩ := hok.table hname
      obtain ⟨Q, hQ, -⟩ := hP.rowsTree
      have hc : db.contents table = some ⟨columnValues state, (Ms table).rows, state.nextRowid⟩ := by
        rw [h.contents_eq, contentsOf, hname, Option.map_some]
      dsimp only at hrow
      rw [hQ.holds.search h.clean, ok_bind] at hrow
      cases hid : (Ms table).rows id with
      | none =>
          rw [hid] at hrow
          cases hrow
          exact onTable_get hc hid
      | some bytes =>
          rw [hid] at hrow
          dsimp only at hrow
          rw [fromRaw_stored hstore htable hid] at hrow
          cases hrow
          exact onTable_get hc hid

theorem refines_txGet (id : UInt64) :
    Refines (InTransaction.Sound storable keyed) InTransaction.contents
      (InTransaction.get? table id) (onTable table (TableContents.get id)) := by
  rintro s ⟨Ms, h⟩
  have hrun : wlp (InTransaction.get? table id) (fun row _ => ∃ state,
      s.db.tables.lookup table = some state ∧
        row = ((Ms table).rows id).map (Row.mk id)) s := by
    unfold InTransaction.get?
    refine wp.bind wlp_tableState ?_
    rintro state s₁ ⟨rfl, hname⟩
    obtain ⟨htable, P, hP, -⟩ := h.table hname
    obtain ⟨Q, hQ, -⟩ := hP.rowsTree
    have hsearch : BTreeWriter.search s₁.guard (s₁.tx.currentRoot table state) id =
        .ok ((Ms table).rows id) := by
      rw [currentRoot_eq]
      exact searchTree_holds hQ.holds _ id
    have hread := withGuard_read h.clean
      (f := fun guard => BTreeWriter.search guard (s₁.tx.currentRoot table state) id) hsearch
    refine wlp_get_bind.mpr (wp_bind.mpr ((wp_of_ok hread).mpr ?_))
    cases hid : (Ms table).rows id with
    | none => exact ⟨state, hname, rfl⟩
    | some bytes =>
        refine wlp_lift_bind fun row hrow => ?_
        rw [fromRaw_stored hstore htable hid] at hrow
        cases hrow
        exact ⟨state, hname, rfl⟩
  have hsame := wlp_of_wp (LeavesTx.get? table id s)
  refine (hrun.and hsame).mono ?_ fun _ _ _ => trivial
  rintro row s' ⟨⟨state, hname, rfl⟩, hunchanged⟩
  rw [hunchanged.2 h.clean]
  exact ⟨⟨Ms, h⟩, onTable_get (h.contents_table hname) rfl⟩

/-! ## Scripts -/

omit hstore in
/-- Before a transaction has done anything, it sees the contents of the database. -/
theorem DbInv.contents_beginAcid {db : Db} (h : DbInv storable keyed db Ms) :
    db.beginAcid.contents = db.contents := by
  rw [h.beginAcid.contents_eq, h.contents_eq]
  rfl

omit hstore in
/-- **A commit publishes what the transaction saw.** -/
theorem TxInv.contents_commit (h : TxInv storable keyed s Ms)
    (hcommit : InTransaction.commit s = .ok () s') :
    Db.Sound storable keyed s'.db ∧ s'.db.contents = s.contents := by
  obtain ⟨hinv, hdb⟩ := (wlp_txCommit h).ok hcommit
  refine ⟨⟨Ms, hinv⟩, ?_⟩
  rw [hinv.contents_eq, h.contents_eq, hdb]

omit hstore in
/-- A program in a transaction of its own. -/
theorem refines_inTransaction {x : StateResult InTransaction α} {m : ContentsM α}
    (hx : Refines (InTransaction.Sound storable keyed) InTransaction.contents x m) :
    Refines (Db.Sound storable keyed) Db.contents (Db.inTransaction x) m := by
  rintro db ⟨Ms, h⟩
  rw [wlp_iff]
  intro a db' hrun
  obtain ⟨s, s', hbody, hcommit, rfl⟩ := inTransaction_eq_ok hrun
  obtain ⟨⟨Ms', htx⟩, hm⟩ := (hx db.beginAcid ⟨Ms, h.beginAcid⟩).ok hbody
  obtain ⟨hsound, hcontents⟩ := htx.contents_commit hcommit
  refine ⟨hsound, ?_⟩
  rw [hcontents, ← h.contents_beginAcid]
  exact hm

end

/-- An operation as a call of the database. -/
def RowOp.perform [Crc32Fast] (w : TreeWriters) (table : String) : RowOp → StateResult Db TxReply
  | .insert data => answered .wrote ((RowCall.insert data).perform w table)
  | .insertWithId id data => answered .wrote ((RowCall.insertWithId id data).perform w table)
  | .insertMany rows => answered .wrote ((RowCall.insertMany rows).perform w table)
  | .update id fields => answered .wrote ((RowCall.update id fields).perform w table)
  | .delete id => answered .wrote ((RowCall.delete id).perform w table)
  | .get id => answered .row (Db.getRow table id)

/-- An operation as a call of a transaction. -/
def RowOp.txCall (table : String) : RowOp → TxCall
  | .insert data => .row table (.insert data)
  | .insertWithId id data => .row table (.insertWithId id data)
  | .insertMany rows => .row table (.insertMany rows)
  | .update id fields => .row table (.update id fields)
  | .delete id => .row table (.delete id)
  | .get id => .get table id

/-- Operations, each on the table that is named. -/
abbrev Script := List (String × RowOp)

/-- How a script is run: call by call in one of the modes, or as one transaction. -/
inductive Way
  | inPlace
  | acid
  | oneTransaction

def Way.run [Crc32Fast] (w : TreeWriters) (script : Script) :
    Way → StateResult Db (List TxReply)
  | .inPlace => do
      modify fun db => { db with acid := false }
      script.mapM fun e => e.2.perform w e.1
  | .acid => do
      modify fun db => { db with acid := true }
      script.mapM fun e => e.2.perform w e.1
  | .oneTransaction => Db.inTransaction (script.mapM fun e => (e.2.txCall e.1).perform w)

/-- A script that is cut into pieces, each run in its own way. -/
abbrev Plan := List (Way × Script)

def Plan.script (plan : Plan) : Script := plan.flatMap Prod.snd

def Plan.run [Crc32Fast] (w : TreeWriters) (plan : Plan) : StateResult Db (List TxReply) := do
  let replies ← plan.mapM fun piece => piece.1.run w piece.2
  pure replies.flatten

/-- What a script is for. -/
def Script.effect (script : Script) : ContentsM (List TxReply) :=
  script.mapM fun e => e.2.effect e.1

section

variable [Crc32Fast] {storable : UInt64 → List UInt8 → Prop} {keyed : Prop} {db db' : Db}
  {table : String} {α β : Type}

omit [Crc32Fast] in
/-- The reply of a reply. -/
theorem refines_answered {σ τ : Type} {Inv : σ → Prop} {abs : σ → τ} {x : StateResult σ α}
    {m : StateT τ (Except Fault) α} (g : α → Reply) (hx : Refines Inv abs x m) :
    Refines Inv abs (answered .wrote (replied g x))
      (do let a ← m; pure (TxReply.wrote (g a))) := by
  have heq : answered .wrote (replied g x) = (do let a ← x; pure (TxReply.wrote (g a))) := by
    unfold answered replied
    simp only [bind_assoc, pure_bind]
  rw [heq]
  exact hx.map

omit [Crc32Fast] in
theorem withTable_replied (g : α → Reply) (y : StateResult Session α) :
    Db.withTable table (replied g y) = replied g (Db.withTable table y) := by
  funext db
  unfold replied Db.withTable
  simp only [bind, EStateM.bind]
  cases db.tables.lookup table with
  | none => rfl
  | some state =>
      dsimp only
      cases y ⟨state, db.file, db.wal, db.durability, db.maxRowSize⟩ <;> rfl

/-- A row operation that does the same in both modes. -/
theorem refines_modes {call : RowCall} {m : ContentsM α} {g : α → Reply}
    {x : StateResult InTransaction α} {y : StateResult Session α}
    (hinTx : call.inTransaction (.watched storable) table = replied g x)
    (hinPlace : call.inPlace (.watched storable) = replied g y)
    (hx : Refines (InTransaction.Sound storable keyed) InTransaction.contents x m)
    (hy : Refines (Db.Sound storable keyed) Db.contents (Db.withTable table y) m) :
    Refines (Db.Sound storable keyed) Db.contents
      (answered .wrote (call.perform (.watched storable) table))
      (do let a ← m; pure (TxReply.wrote (g a))) := by
  have heq : (do let a ← m; pure (TxReply.wrote (g a)) : ContentsM TxReply) =
      (do let r ← (do let a ← m; pure (g a)); pure (TxReply.wrote r)) := by
    simp only [bind_assoc, pure_bind]
  rw [heq]
  refine Refines.map fun db hdb => wlp_get_bind.mpr ?_
  refine wlp_ite (fun _ => ?_) fun _ => ?_
  · rw [hinTx]
    exact refines_inTransaction (Refines.map hx) db hdb
  · rw [hinPlace, withTable_replied]
    exact Refines.map hy db hdb

variable (hstore : ∀ id row, storable id row → Storable id row)

include hstore

/-- **An operation does what it is for**, as a call of a transaction. -/
theorem RowOp.refines_txCall (op : RowOp) :
    Refines (InTransaction.Sound storable keyed) InTransaction.contents
      ((op.txCall table).perform (.watched storable)) (op.effect table) := by
  cases op with
  | insert data => exact refines_answered .rowid (refines_txInsert hstore data)
  | insertWithId id data =>
      exact refines_answered (fun _ => .done) (refines_txInsertWithId hstore id data)
  | insertMany rows =>
      exact refines_answered .rowids (Refines.mapM rows fun data => refines_txInsert hstore data)
  | update id fields => exact refines_answered .found (refines_txUpdate hstore id fields)
  | delete id => exact refines_answered .found (refines_txDelete id)
  | get id => exact Refines.map (refines_txGet hstore id)

/-- **An operation does what it is for**, as a call of the database, in both modes. -/
theorem RowOp.refines_perform (op : RowOp) :
    Refines (Db.Sound storable keyed) Db.contents (op.perform (.watched storable) table)
      (op.effect table) := by
  cases op with
  | insert data =>
      exact refines_modes rfl rfl (refines_txInsert hstore data) (refines_insert hstore data)
  | insertWithId id data =>
      exact refines_modes (g := fun _ => .done) rfl rfl (refines_txInsertWithId hstore id data)
        (refines_insertWithId hstore id data)
  | insertMany rows =>
      exact refines_modes rfl rfl (Refines.mapM rows fun data => refines_txInsert hstore data)
        (refines_insertMany hstore rows)
  | update id fields =>
      exact refines_modes rfl rfl (refines_txUpdate hstore id fields)
        (refines_update hstore id fields)
  | delete id => exact refines_modes rfl rfl (refines_txDelete id) (refines_delete id)
  | get id => exact Refines.map (refines_getRow hstore id)

omit hstore in
/-- The mode is no part of what the tables contain. -/
theorem refines_setAcid (acid : Bool) :
    Refines (Db.Sound storable keyed) Db.contents
      (modify fun db => { db with acid } : StateResult Db PUnit)
      (pure PUnit.unit : ContentsM PUnit) := by
  rintro db ⟨Ms, h⟩
  exact ⟨⟨Ms, h.clean, h.ok⟩, rfl⟩

/-- **A script does what it is for**, in each way it can be run. -/
theorem Script.refines_run (way : Way) (script : Script) :
    Refines (Db.Sound storable keyed) Db.contents (way.run (.watched storable) script)
      script.effect := by
  have hcalls : Refines (Db.Sound storable keyed) Db.contents
      (script.mapM fun e => e.2.perform (.watched storable) e.1) script.effect :=
    Refines.mapM script fun e => e.2.refines_perform hstore
  cases way with
  | inPlace => exact (refines_setAcid false).bind fun _ => hcalls
  | acid => exact (refines_setAcid true).bind fun _ => hcalls
  | oneTransaction =>
      exact refines_inTransaction (Refines.mapM script fun e => e.2.refines_txCall hstore)

/-- What is done piece by piece. -/
theorem Plan.refines_run (plan : Plan) :
    Refines (Db.Sound storable keyed) Db.contents (plan.run (.watched storable))
      plan.script.effect := by
  have hpieces : Script.effect plan.script =
      (plan.mapM fun piece => piece.2.effect) >>= fun replies => pure replies.flatten := by
    unfold Plan.script
    induction plan with
    | nil => rfl
    | cons piece plan ih =>
        rw [List.flatMap_cons, Script.effect, List.mapM_append, List.mapM_cons]
        show (Script.effect piece.2 >>= fun replies => Script.effect _ >>= _) = _
        rw [ih]
        simp only [bind_assoc, pure_bind, List.flatten_cons]
  rw [hpieces]
  exact Refines.map (Refines.mapM plan fun piece => piece.2.refines_run hstore piece.1)

/-- **A plan does what its script is for**, in every database that was reached. -/
theorem Reaches.plan_run {plan : Plan} {replies : List TxReply} (h : Reaches storable keyed db)
    (hrun : plan.run (.watched storable) db = .ok replies db') :
    plan.script.effect db.contents = .ok (replies, db'.contents) :=
  ((plan.refines_run hstore db (h.inv hstore)).ok hrun).2

/-- **The plan makes no difference**: two plans of one script that return have returned the same,
and the tables contain the same. -/
theorem Reaches.plans_agree {plan plan' : Plan} {db₁ db₂ : Db} {replies replies' : List TxReply}
    (h : Reaches storable keyed db) (hsame : plan'.script = plan.script)
    (hrun : plan.run (.watched storable) db = .ok replies db₁)
    (hrun' : plan'.run (.watched storable) db = .ok replies' db₂) :
    replies' = replies ∧ db₂.contents = db₁.contents := by
  have hplan' := @Plan.refines_run _ storable keyed hstore plan'
  rw [hsame] at hplan'
  exact hplan'.agree (plan.refines_run hstore) (h.inv hstore) (h.inv hstore) rfl hrun' hrun

end

/-! ## A plan with all the ways -/

namespace WritersBelow

variable [Crc32Fast] {w w' : TreeWriters} (hw : WritersBelow w w')

include hw

theorem rowOp (table : String) (op : RowOp) : Below (op.perform w table) (op.perform w' table) := by
  cases op with
  | get id => exact .refl _
  | _ => exact (hw.performRow _ _).bind fun _ => .refl _

theorem txOp (table : String) (op : RowOp) :
    Below ((op.txCall table).perform w) ((op.txCall table).perform w') := by
  cases op with
  | get id => exact .refl _
  | _ => exact (hw.inTransaction _ _).bind fun _ => .refl _

theorem way (way : Way) (script : Script) : Below (way.run w script) (way.run w' script) := by
  cases way with
  | oneTransaction => exact below_inTransaction (Below.mapM _ fun _ => hw.txOp _ _)
  | _ => exact (Below.refl _).bind fun _ => Below.mapM _ fun _ => hw.rowOp _ _

/-- What a plan returns with writers that ask for more, it returns with these. -/
theorem plan (plan : Plan) : Below (plan.run w) (plan.run w') :=
  (Below.mapM _ fun _ => hw.way _ _).bind fun _ => .refl _

end WritersBelow

/-- Rows of two tables are written and read, in each of the three ways. -/
def numbersPlan : Plan :=
  [(.inPlace, [("t", .insert [("n", .integer 5)]), ("u", .insert [("n", .integer 6)])]),
    (.acid, [("t", .update 1 [("n", .integer 8)]), ("t", .get 1)]),
    (.oneTransaction, [("t", .insertMany [[("n", .integer 9)], [("n", .integer 4)]]),
      ("u", .delete 1), ("u", .get 1)])]

/-- What the calls of the plan return. -/
def numbersReplies : List TxReply :=
  [.wrote (.rowid 1), .wrote (.rowid 1), .wrote (.found true),
    .row (some ⟨1, encodeRow 1 [(0, .integer 8)]⟩), .wrote (.rowids [2, 3]), .wrote (.found true),
    .row none]

/-- What a plan returns. -/
theorem plan_run_numbers : letI := crc32Ieee
    ∃ db db' : Db, Reaches Storable True db ∧ numbersPlan.run .code db = .ok numbersReplies db' ∧
      numbersPlan.script.effect db.contents = .ok (numbersReplies, db'.contents) := by
  let := crc32Ieee
  obtain ⟨db, hreaches, hruns⟩ := @exists_checkedRun _
    [.returned (createNumbers "t"), .returned indexNumbers, .returned (createNumbers "u")]
    (fun db => (match numbersPlan.run .checked db with
      | .ok replies _ => decide (replies = numbersReplies)
      | .error .. => false) = true) _ (by decide +kernel)
  cases hchecked : numbersPlan.run .checked db with
  | error e db' =>
      rw [hchecked] at hruns
      cases hruns
  | ok replies db' =>
      rw [hchecked] at hruns
      obtain rfl := of_decide_eq_true hruns
      have hrun := checked_below_watched.plan numbersPlan _ _ _ hchecked
      exact ⟨db, db', hreaches, (watched_below_code Storable).plan numbersPlan _ _ _ hrun,
        Reaches.plan_run (fun _ _ hrow => hrow) hreaches hrun⟩

end BoogyDb
