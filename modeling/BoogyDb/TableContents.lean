import BoogyDb.DbRuns
import BoogyDb.Lib.Simulation
import BoogyDb.SessionFrames

/-!
# What the tables are to their users

To a user a table is its rows, by their ids, and the id that the next row gets.  A `RowOp` is
an operation that names rows by ids, and `RowOp.effect` is what it is for: it is all about maps.
The database refines this: outside ACID mode and in it, a call that returns does to the
contents of its table what its effect says, and nothing to the contents of another table.
-/

namespace BoogyDb

open Bytes Wp WriteGuard FencedTree Ownership Simulation

/-! ## The contents of a table -/

structure TableContents where
  /-- The columns that are written for the values a caller hands over. -/
  values : RowData → List Column
  rows : UInt64 → Option (List UInt8)
  /-- The id of the next row. -/
  next : UInt64

/-- The tables by their names. -/
abbrev Contents := String → Option TableContents

/-- A program on the contents of a table. -/
abbrev TableM (α : Type) := StateT TableContents (Except Fault) α

/-- A program on the contents of the tables. -/
abbrev ContentsM (α : Type) := StateT Contents (Except Fault) α

namespace TableContents

/-- The row with the given values is put under an id. -/
def put (t : TableContents) (id : UInt64) (columns : List Column) : TableContents :=
  { t with rows := Function.update t.rows id (some (encodeRow id columns)) }

def insert (data : RowData) : TableM UInt64 := fun t => do
  let next ← addOne t.next
  pure (t.next, { t.put t.next (t.values data) with next })

/-- The id after a row with the given id. -/
def nextAfter (next id : UInt64) : Result UInt64 := if next ≤ id then addOne id else .ok next

def insertWithId (id : UInt64) (data : RowData) : TableM Unit := fun t => do
  let next ← nextAfter t.next id
  pure ((), { t.put id (t.values data) with next })

/-- A field that is given replaces the old one, or comes new. -/
def update (id : UInt64) (fields : RowData) : TableM Bool := fun t =>
  match t.rows id with
  | none => .ok (false, t)
  | some old => do
      let existing ← decodeRow old
      pure (true, t.put id (collectColumns (existing.columns ++ t.values fields)))

def delete (id : UInt64) : TableM Bool := fun t =>
  .ok ((t.rows id).isSome, { t with rows := Function.update t.rows id none })

def get (id : UInt64) : TableM (Option Row) := fun t => .ok ((t.rows id).map (Row.mk id), t)

end TableContents

/-- Run on the contents of one table. -/
def onTable {α : Type} (table : String) (x : TableM α) : ContentsM α := fun c =>
  match c table with
  | none => fail (.tableNotFound table)
  | some t => do
      let (a, t') ← x t
      pure (a, Function.update c table (some t'))

/-- On a table that is there, one program after the other. -/
theorem onTable_bind {α β : Type} {table : String} {x : TableM α} {f : α → TableM β} {c : Contents}
    (hc : (c table).isSome) : onTable table (x >>= f) c =
      (onTable table x >>= fun a => onTable table (f a)) c := by
  obtain ⟨t, ht⟩ := Option.isSome_iff_exists.mp hc
  show _ = (onTable table x c >>= fun r => onTable table (f r.1) r.2)
  rw [onTable, ht]
  show (x t >>= fun r => f r.1 r.2) >>= _ = (onTable table x c >>= _)
  rw [onTable, ht]
  dsimp only
  cases x t with
  | error e => rfl
  | ok r =>
      rw [ok_bind, ok_bind]
      show _ = onTable table (f r.1) (Function.update c table (some r.2))
      rw [onTable, Function.update_self]
      dsimp only
      simp only [Function.update_idem]

/-- A program returns on a table that is there, and leaves it there. -/
theorem onTable_eq_ok {α : Type} {table : String} {x : TableM α} {c c' : Contents} {a : α}
    (h : onTable table x c = .ok (a, c')) : (c table).isSome ∧ (c' table).isSome := by
  rw [onTable] at h
  cases hc : c table with
  | none =>
      rw [hc] at h
      cases h
  | some t =>
      rw [hc] at h
      obtain ⟨r, -, h⟩ := bind_eq_ok.mp h
      cases h
      exact ⟨rfl, by rw [Function.update_self]; rfl⟩

/-- A loop on a table that is there. -/
theorem onTable_mapM {α γ : Type} {table : String} (f : γ → TableM α) (l : List γ) {c : Contents}
    (hc : (c table).isSome) :
    onTable table (l.mapM f) c = (l.mapM fun a => onTable table (f a)) c := by
  induction l generalizing c with
  | nil =>
      obtain ⟨t, ht⟩ := Option.isSome_iff_exists.mp hc
      rw [onTable, ht]
      show Except.ok ([], Function.update c table (some t)) = .ok ([], c)
      rw [Function.update_eq_self_iff.mpr ht.symm]
  | cons a l ih =>
      rw [List.mapM_cons, List.mapM_cons, onTable_bind hc]
      show (onTable table (f a) c >>= fun r => onTable table _ r.2) =
        (onTable table (f a) c >>= fun r => _)
      cases hfirst : onTable table (f a) c with
      | error e => rfl
      | ok r =>
          have hr : (r.2 table).isSome := (onTable_eq_ok hfirst).2
          rw [ok_bind, ok_bind, onTable_bind hr]
          show (onTable table (l.mapM f) r.2 >>= fun q => onTable table _ q.2) =
            ((l.mapM fun a => onTable table (f a)) r.2 >>= fun q => _)
          rw [← ih hr]
          cases hrest : onTable table (l.mapM f) r.2 with
          | error e => rfl
          | ok q =>
              obtain ⟨t, ht⟩ := Option.isSome_iff_exists.mp (onTable_eq_ok hrest).2
              rw [ok_bind, ok_bind, onTable, ht]
              show Except.ok (_, Function.update q.2 table (some t)) = .ok (_, q.2)
              rw [Function.update_eq_self_iff.mpr ht.symm]

/-- The operations that name rows by ids. -/
inductive RowOp
  | insert (data : RowData)
  | insertWithId (id : UInt64) (data : RowData)
  | insertMany (rows : List RowData)
  | update (id : UInt64) (fields : RowData)
  | delete (id : UInt64)
  | get (id : UInt64)

/-- What an operation is for. -/
def RowOp.effect (table : String) : RowOp → ContentsM TxReply
  | .insert data => do
      let id ← onTable table (TableContents.insert data)
      pure (.wrote (.rowid id))
  | .insertWithId id data => do
      let _ ← onTable table (TableContents.insertWithId id data)
      pure (.wrote .done)
  | .insertMany rows => do
      let ids ← rows.mapM fun data => onTable table (TableContents.insert data)
      pure (.wrote (.rowids ids))
  | .update id fields => do
      let found ← onTable table (TableContents.update id fields)
      pure (.wrote (.found found))
  | .delete id => do
      let found ← onTable table (TableContents.delete id)
      pure (.wrote (.found found))
  | .get id => do
      let row ← onTable table (TableContents.get id)
      pure (.row row)

/-- The rows that a search finds. -/
def foundRows (search : UInt64 → Result (Option (List UInt8))) : UInt64 → Option (List UInt8) :=
  fun id =>
    match search id with
    | .ok row => row
    | .error _ => none

section

variable [Crc32Fast]

/-- The contents of the tables of a database. -/
def Db.contents (db : Db) : Contents := fun table =>
  (db.tables.lookup table).map fun state =>
    ⟨columnValues state, foundRows (BTreeReader.search db.file state.rootPage), state.nextRowid⟩

/-- The contents that a transaction sees. -/
def InTransaction.contents (s : InTransaction) : Contents := fun table =>
  (s.db.tables.lookup table).map fun state =>
    ⟨columnValues state, foundRows (BTreeWriter.search s.guard (s.tx.currentRoot table state)),
      s.tx.currentNextRowid table state⟩

/-! ## Contents and models -/

variable {storable : UInt64 → List UInt8 → Prop} {keyed : Prop} {db db' : Db}
  {Ms Ms' : String → TableModel} {table : String} {α : Type}

/-- The contents of tables whose rows are those of the models. -/
def contentsOf (tables : Tables) (Ms : String → TableModel) : Contents := fun table =>
  (tables.lookup table).map fun state => ⟨columnValues state, (Ms table).rows, state.nextRowid⟩

omit [Crc32Fast] in
theorem foundRows_eq {search : UInt64 → Result (Option (List UInt8))}
    {m : UInt64 → Option (List UInt8)} (h : ∀ id, search id = .ok (m id)) : foundRows search = m := by
  funext id
  rw [foundRows, h id]

theorem DbInv.contents_eq (h : DbInv storable keyed db Ms) :
    db.contents = contentsOf db.tables Ms := by
  funext table
  unfold Db.contents contentsOf
  cases hname : db.tables.lookup table with
  | none => rfl
  | some state =>
      obtain ⟨started, hok⟩ := h.ok
      obtain ⟨-, P, hP, -⟩ := hok.table hname
      obtain ⟨Q, hQ, -⟩ := hP.rowsTree
      rw [Option.map_some, Option.map_some, foundRows_eq (hQ.holds.search h.clean)]

theorem TxInv.contents_eq {s : InTransaction} (h : TxInv storable keyed s Ms) :
    s.contents = contentsOf s.seenTables Ms := by
  funext table
  unfold InTransaction.contents contentsOf
  rw [s.lookup_seenTables]
  cases hname : s.db.tables.lookup table with
  | none => rfl
  | some state =>
      obtain ⟨-, P, hP, -⟩ := h.table hname
      obtain ⟨Q, hQ, -⟩ := hP.rowsTree
      have hsearch : ∀ id, BTreeWriter.search s.guard (s.tx.currentRoot table state) id =
          .ok ((Ms table).rows id) := by
        intro id
        rw [currentRoot_eq]
        exact searchTree_holds hQ.holds _ id
      have hvalues : columnValues (s.tx.seen table state) = columnValues state :=
        funext fun data => columnValues_congr (h.seen_sameSchema hname) data
      rw [Option.map_some, Option.map_some, Option.map_some, foundRows_eq hsearch,
        h.currentNextRowid_eq hname, hvalues]

omit [Crc32Fast] in
/-- The contents after a change of one table. -/
theorem contentsOf_update {tables tables' : Tables} {state state' : TableMeta} {M' : TableModel}
    (hname : tables.lookup table = some state) (hname' : tables'.lookup table = some state')
    (hvalues : columnValues state' = columnValues state)
    (hother : ∀ other, other ≠ table → tables'.lookup other = tables.lookup other) :
    contentsOf tables' (Function.update Ms table M') =
      Function.update (contentsOf tables Ms) table
        (some ⟨columnValues state, M'.rows, state'.nextRowid⟩) := by
  funext other
  unfold contentsOf
  by_cases heq : other = table
  · subst heq
    rw [Function.update_self, Function.update_self, hname', Option.map_some, hvalues]
  · rw [Function.update_of_ne heq, Function.update_of_ne heq, hother other heq]

/-- Between two calls the tables are sound. -/
def Db.Sound (storable : UInt64 → List UInt8 → Prop) (keyed : Prop) (db : Db) : Prop :=
  ∃ Ms, DbInv storable keyed db Ms

/-- Between two calls a transaction sees sound tables. -/
def InTransaction.Sound (storable : UInt64 → List UInt8 → Prop) (keyed : Prop)
    (s : InTransaction) : Prop :=
  ∃ Ms, TxInv storable keyed s Ms

/-! ## Calls in place -/

/-- What a call on a table under its lock does, from what it does to the model of the table. -/
theorem refines_withTable {x : StateResult Session α} {f : TableM α}
    (hx : ∀ (s : Session) (M : TableModel) (P : Set ℕ),
      TableAt s.state.rootPage s.state.indexes M s.file P → s.file.writeState = ⟨∅, 0⟩ →
        wlp x (fun a s' => ∃ M', SameSchema s.state s'.state ∧ TableStep storable keyed s s' P M M' ∧
          f ⟨columnValues s.state, M.rows, s.state.nextRowid⟩ =
            .ok (a, ⟨columnValues s.state, M'.rows, s'.state.nextRowid⟩)) s) :
    Refines (Db.Sound storable keyed) Db.contents (Db.withTable table x) (onTable table f) := by
  rintro db ⟨Ms, h⟩
  refine (wlp_withTable (Q := fun a s' M' => ∃ state, db.tables.lookup table = some state ∧
    SameSchema state s'.state ∧ f ⟨columnValues state, (Ms table).rows, state.nextRowid⟩ =
      .ok (a, ⟨columnValues state, M'.rows, s'.state.nextRowid⟩)) h
    fun state P hname _ hP => (hx (db.session state) _ P hP h.clean).post ?_).post ?_
  · rintro a s' ⟨M', hschema, hstep, hf⟩
    exact ⟨M', ⟨state, hname, hschema, hf⟩, hstep⟩
  · rintro a db' ⟨state, s', M', hname, -, ⟨state₁, hname₁, hschema, hf⟩, -, rfl, hinv⟩
    rw [hname] at hname₁
    obtain rfl := Option.some.inj hname₁
    refine ⟨⟨_, hinv⟩, ?_⟩
    have hhere : contentsOf db.tables Ms table =
        some ⟨columnValues state, (Ms table).rows, state.nextRowid⟩ := by
      rw [contentsOf, hname, Option.map_some]
    rw [h.contents_eq, hinv.contents_eq, onTable, hhere]
    dsimp only
    rw [hf, ok_bind]
    refine congrArg (fun c => Except.ok (a, c)) (contentsOf_update hname ?_ ?_ ?_).symm
    · exact AList.lookup_replace (Option.isSome_of_eq_some hname)
    · exact funext fun data => columnValues_congr hschema data
    · exact fun other hne => AList.lookup_replace_ne hne

/-! ### The next row id -/

/-- The next row id is the same. -/
def SameNext (s s' : Session) : Prop := s'.state.nextRowid = s.state.nextRowid

/-- The next row id is the same behind the program. -/
abbrev KeepsNext (x : StateResult Session α) : Prop := Within SameNext x

theorem rowFrame_sameNext : RowFrame SameNext where
  refl := fun _ => rfl
  trans := fun h h' => h'.trans h
  file := fun _ _ => rfl
  commit := by
    intro s
    rw [wp, commitWrite]
    cases commitFile s.durability s.state.tableId s.file s.wal <;> exact rfl
  rootPage := fun _ _ => rfl
  indexes := fun _ _ => rfl
  rowCount := fun _ _ => rfl

omit [Crc32Fast] in
/-- A program that keeps the next row id, when it returns. -/
theorem KeepsNext.wlp {x : StateResult Session α} (hx : KeepsNext x) (s : Session) :
    wlp x (fun _ s' => s'.state.nextRowid = s.state.nextRowid) s := wlp_of_wp (hx s)

theorem wlp_insert_next {w : TreeWriters} {s : Session} {data : RowData} :
    wlp (Session.insert w data) (fun _ s' =>
      addOne s.state.nextRowid = .ok s'.state.nextRowid) s := by
  have hrow := rowFrame_sameNext
  unfold Session.insert
  refine wlp_get_bind.mpr (wlp_lift_bind fun _ _ => wlp_lift_bind fun next hnext => ?_)
  refine wlp_modifyState_bind.mpr (wlp_ite (fun _ => wlp_throw) fun _ => ?_)
  have hrun : wlp (do
      Session.insertRow w s.state.nextRowid (encodeRow s.state.nextRowid (columnValues s.state data))
      Session.countRow
      pure s.state.nextRowid) (fun _ s' => s'.state.nextRowid = next)
      { s with state := { s.state with nextRowid := next } } :=
    KeepsNext.wlp (hrow.bind (hrow.insertRow w _ _) fun _ => hrow.bind hrow.countRow fun _ =>
      hrow.pure _) _
  split
  · refine hrun.post fun _ s' hs' => ?_
    rw [hs']
    exact hnext
  · exact trivial
  · exact trivial

theorem wlp_insertWithId_next {w : TreeWriters} {s : Session} {id : UInt64} {data : RowData} :
    wlp (Session.insertWithId w id data) (fun _ s' =>
      TableContents.nextAfter s.state.nextRowid id = .ok s'.state.nextRowid) s := by
  have hrow := rowFrame_sameNext
  unfold Session.insertWithId TableContents.nextAfter
  refine wlp_get_bind.mpr (wlp_lift_bind fun _ _ => wlp_ite (fun _ => wlp_throw) fun _ => ?_)
  refine wlp_lift_bind fun _ _ => ?_
  have hrest : ∀ next, wlp (Session.insertRow w id (encodeRow id (columnValues s.state data)) >>=
      fun _ => Session.countRow) (fun _ s' => s'.state.nextRowid = next)
      { s with state := { s.state with nextRowid := next } } := fun next =>
    KeepsNext.wlp (hrow.bind (hrow.insertRow w _ _) fun _ => hrow.countRow) _
  refine wlp_ite (fun hle => wlp_lift_bind fun next hnext => ?_) fun hlt => ?_
  · refine wlp_modifyState_bind.mpr ((hrest next).post fun _ s' hs' => ?_)
    rw [if_pos hle, hs']
    exact hnext
  · refine (hrest s.state.nextRowid).post fun _ s' hs' => ?_
    rw [if_neg hlt, hs']

/-- The ids of several rows, and the id after them. -/
def numberRows : UInt64 → List RowData → Result (List UInt64 × UInt64)
  | next, [] => .ok ([], next)
  | next, _ :: rows => do
      let (ids, last) ← numberRows (← addOne next) rows
      pure (next :: ids, last)

omit [Crc32Fast] in
/-- Rows that are inserted one after the other. -/
theorem insert_mapM {values : RowData → List Column} {R : UInt64 → Option (List UInt8)}
    {rows : List RowData} {ids : List UInt64} {next last : UInt64}
    {entries : List (UInt64 × List UInt8)} (h : numberRows next rows = .ok (ids, last))
    (hids : ids = entries.map Prod.fst)
    (hentries : List.Forall₂ (fun data e => e.2 = encodeRow e.1 (values data)) rows entries) :
    (rows.mapM TableContents.insert : TableM (List UInt64)) ⟨values, R, next⟩ =
      .ok (ids, ⟨values, insertAll R entries, last⟩) := by
  induction hentries generalizing R next ids with
  | nil =>
      cases h
      rfl
  | @cons data e rows entries hrow _ ih =>
      obtain ⟨next', hnext, h⟩ := bind_eq_ok.mp h
      obtain ⟨⟨ids', last'⟩, hrest, h⟩ := bind_eq_ok.mp h
      cases h
      obtain ⟨hid, hids'⟩ := List.cons.inj hids
      have hinsert : TableContents.insert data ⟨values, R, next⟩ =
          .ok (next, ⟨values, Function.update R next (some (encodeRow next (values data))), next'⟩) := by
        rw [TableContents.insert, hnext, ok_bind]
        rfl
      rw [List.mapM_cons]
      show (TableContents.insert data ⟨values, R, next⟩ >>= _) = _
      rw [hinsert, ok_bind]
      show ((rows.mapM TableContents.insert : TableM (List UInt64)) _ >>= _) = _
      rw [ih hrest hids', ok_bind, insertAll, insertAll, List.foldl_cons, hrow, ← hid]
      rfl

theorem wlp_insertManyLoop_next {w : TreeWriters} {rows : List RowData} {root : ℕ} {next : UInt64}
    {ids : List UInt64} {s : Session} :
    wlp (Session.insertManyLoop w rows root next ids) (fun res _ => ∃ new,
      res.2.2 = ids ++ new ∧ numberRows next rows = .ok (new, res.2.1)) s := by
  induction rows generalizing root next ids s with
  | nil => exact ⟨[], (List.append_nil _).symm, rfl⟩
  | cons data rows ih =>
      unfold Session.insertManyLoop
      refine wlp_get_bind.mpr (wlp_lift_bind fun next' hnext => wlp_ite (fun _ => wlp_throw) fun _ => ?_)
      refine wp.bind wlp_true fun root' s₁ _ => wp.bind wlp_true fun _ s₂ _ => ih.post ?_
      rintro ⟨root'', last, ids'⟩ s' ⟨new, hids, hnumber⟩
      refine ⟨next :: new, ?_, ?_⟩
      · rw [hids, List.append_assoc]
        rfl
      · show (addOne next >>= fun n => numberRows n rows >>= _) = _
        rw [hnext, ok_bind, hnumber]
        rfl

theorem wlp_insertMany_next {w : TreeWriters} {rows : List RowData} {s : Session} :
    wlp (Session.insertMany w rows) (fun ids s' =>
      numberRows s.state.nextRowid rows = .ok (ids, s'.state.nextRowid)) s := by
  unfold Session.insertMany
  refine wlp_get_bind.mpr (wp.bind wlp_true fun _ s₁ _ => wp.bind wlp_insertManyLoop_next ?_)
  rintro ⟨root, last, ids⟩ s₂ ⟨new, hids, hnumber⟩
  refine wp.bind wlp_true fun _ s₃ _ => wlp_lift_bind fun count _ => ?_
  refine wlp_modifyState_bind.mpr ?_
  rw [List.nil_append] at hids
  rw [← hids] at hnumber
  exact hnumber

/-! ### Operations in place -/

variable (hstore : ∀ id row, storable id row → Storable id row)

include hstore

theorem refines_insert (data : RowData) :
    Refines (Db.Sound storable keyed) Db.contents
      (Db.withTable table (Session.insert (.watched storable) data))
      (onTable table (TableContents.insert data)) := by
  refine refines_withTable fun s M P hP _ =>
    ((wlp_insert hP hstore).and wlp_insert_next).mono ?_ fun _ _ _ => trivial
  rintro _ s' ⟨⟨rfl, row, rfl, -, -, -, M', hrows, hstep⟩, hnext⟩
  refine ⟨M', hstep.schema, hstep.tableStep, ?_⟩
  rw [TableContents.insert, hnext, ok_bind, hrows]
  rfl

theorem refines_insertWithId (id : UInt64) (data : RowData) :
    Refines (Db.Sound storable keyed) Db.contents
      (Db.withTable table (Session.insertWithId (.watched storable) id data))
      (onTable table (TableContents.insertWithId id data)) := by
  refine refines_withTable fun s M P hP _ =>
    ((wlp_insertWithId hP hstore).and wlp_insertWithId_next).mono ?_ fun _ _ _ => trivial
  rintro _ s' ⟨⟨row, rfl, -, -, -, M', hrows, hstep⟩, hnext⟩
  refine ⟨M', hstep.schema, hstep.tableStep, ?_⟩
  rw [TableContents.insertWithId, hnext, ok_bind, hrows]
  rfl

theorem refines_insertMany (rows : List RowData) :
    Refines (Db.Sound storable keyed) Db.contents
      (Db.withTable table (Session.insertMany (.watched storable) rows))
      (rows.mapM fun data => onTable table (TableContents.insert data)) := by
  have hone : Refines (Db.Sound storable keyed) Db.contents
      (Db.withTable table (Session.insertMany (.watched storable) rows))
      (onTable table (rows.mapM TableContents.insert)) := by
    refine refines_withTable fun s M P hP _ =>
      ((wlp_insertMany hP hstore).and wlp_insertMany_next).mono ?_ fun _ _ _ => trivial
    rintro ids s' ⟨⟨entries, M', hids, hdata, hrows, hstep⟩, hnext⟩
    refine ⟨M', hstep.schema, hstep.tableStep, ?_⟩
    rw [insert_mapM hnext hids hdata, hrows]
  intro db hdb
  refine (hone db hdb).post ?_
  rintro ids db' ⟨hsound, hm⟩
  refine ⟨hsound, ?_⟩
  rwa [onTable_mapM _ rows (onTable_eq_ok hm).1] at hm

theorem refines_update (id : UInt64) (fields : RowData) :
    Refines (Db.Sound storable keyed) Db.contents
      (Db.withTable table (Session.update (.watched storable) id fields))
      (onTable table (TableContents.update id fields)) := by
  refine refines_withTable fun s M P hP hclean => ((wlp_update hP hclean hstore).and
    (KeepsNext.wlp (rowFrame_sameNext.update _ id fields) s)).mono ?_ fun _ _ _ => trivial
  rintro found s' ⟨⟨rfl, hcase⟩, hnext⟩
  rw [hnext, TableContents.update]
  dsimp only
  cases hid : M.rows id with
  | none =>
      rw [hid] at hcase
      subst hcase
      exact ⟨M, SameSchema.refl _, TableStep.refl hP hclean, rfl⟩
  | some old =>
      rw [hid] at hcase
      obtain ⟨existing, row, hexisting, rfl, -, M', hrows, hstep⟩ := hcase
      refine ⟨M', hstep.schema, hstep.tableStep, ?_⟩
      dsimp only
      rw [hexisting, ok_bind, hrows]
      rfl

omit hstore in
theorem refines_delete (id : UInt64) :
    Refines (Db.Sound storable keyed) Db.contents
      (Db.withTable table (Session.delete (.watched storable) id))
      (onTable table (TableContents.delete id)) := by
  refine refines_withTable fun s M P hP hclean => ((wlp_delete hP hclean).and
    (KeepsNext.wlp (rowFrame_sameNext.delete _ id) s)).mono ?_ fun _ _ _ => trivial
  rintro found s' ⟨⟨rfl, M', hrows, hstep⟩, hnext⟩
  refine ⟨M', hstep.schema, hstep.tableStep, ?_⟩
  rw [hnext, TableContents.delete, hrows]

end

end BoogyDb
