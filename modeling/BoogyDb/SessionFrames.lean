import BoogyDb.Calls
import BoogyDb.Lib.Wp

/-!
# Frames of the table operations

What an operation on a table may change is said by a relation between the sessions before and
after it.  The relation is a `RowFrame` if the pages, the commit and the bookkeeping of the rows
stay within it, and a `TableFrame` if every change of the table does that leaves its columns.

Each operation stays within a frame, whatever the trees are written with and whether it
returns or fails.
-/

namespace BoogyDb

open Wp

namespace TableMeta

@[simp] theorem name_dropColumn (t : TableMeta) (column : String) :
    (t.dropColumn column).name = t.name := by
  unfold dropColumn
  split <;> rfl

@[simp] theorem name_renameColumn (t : TableMeta) (old new : String) :
    (t.renameColumn old new).name = t.name := by
  unfold renameColumn
  split <;> rfl

/-- The name and the columns are the same, and so are the maps made of them. -/
structure SameColumns (t t' : TableMeta) : Prop where
  name : t'.name = t.name
  columns : t'.columns = t.columns
  colNameToId : t'.colNameToId = t.colNameToId
  colNames : t'.colNames = t.colNames
  colDefs : t'.colDefs = t.colDefs

theorem SameColumns.rest (t : TableMeta) (rootPage : ℕ) (rowCount nextRowid : UInt64)
    (indexes : List IndexMeta) :
    t.SameColumns { t with rootPage, rowCount, nextRowid, indexes } := ⟨rfl, rfl, rfl, rfl, rfl⟩

end TableMeta

section

variable [Crc32Fast] {α β : Type} {R : Session → Session → Prop}

/-- What the operations on rows do besides the row ids stays within `R`. -/
structure RowFrame (R : Session → Session → Prop) : Prop where
  refl : ∀ s, R s s
  trans : ∀ {a b c}, R a b → R b c → R a c
  file : ∀ s file, R s { s with file }
  commit : Within R commitWrite
  rootPage : ∀ s rootPage, R s { s with state := { s.state with rootPage } }
  indexes : ∀ s indexes, R s { s with state := { s.state with indexes } }
  rowCount : ∀ s rowCount, R s { s with state := { s.state with rowCount } }

/-- Whatever is done to a table and leaves its columns stays within `R`. -/
structure TableFrame (R : Session → Session → Prop) : Prop where
  refl : ∀ s, R s s
  trans : ∀ {a b c}, R a b → R b c → R a c
  file : ∀ s file, R s { s with file }
  commit : Within R commitWrite
  state : ∀ s state, s.state.SameColumns state → R s { s with state }

theorem TableFrame.rowFrame (hR : TableFrame R) : RowFrame R where
  refl := hR.refl
  trans := hR.trans
  file := hR.file
  commit := hR.commit
  rootPage := fun s _ => hR.state s _ (.rest _ _ _ _ _)
  indexes := fun s _ => hR.state s _ (.rest _ _ _ _ _)
  rowCount := fun s _ => hR.state s _ (.rest _ _ _ _ _)

/-! ## Operations on rows -/

namespace RowFrame

variable (hR : RowFrame R)

include hR

theorem pure (a : α) : Within R (pure a : StateResult Session α) := within_pure hR.refl a

theorem throw (e : Fault) : Within R (throw e : StateResult Session α) := within_throw hR.refl e

theorem get : Within R (get : StateResult Session Session) := within_get hR.refl

theorem bind {x : StateResult Session α} {f : α → StateResult Session β} (hx : Within R x)
    (hf : ∀ a, Within R (f a)) : Within R (x >>= f) := within_bind hR.trans hx hf

theorem lift (x : Result α) : Within R (liftM x : StateResult Session α) := by
  intro s
  cases x <;> exact hR.refl s

theorem inGuard (x : StateResult WriteGuard α) : Within R (inGuard x) := by
  intro s
  rw [wp, BoogyDb.inGuard]
  cases x s.file <;> exact hR.file s _

theorem setRoot (rootPage : ℕ) : Within R (modifyState fun state => { state with rootPage }) :=
  fun s => hR.rootPage s rootPage

theorem setIndexes (indexes : List IndexMeta) :
    Within R (modifyState fun state => { state with indexes }) := fun s => hR.indexes s indexes

theorem setRowCount (rowCount : UInt64) :
    Within R (modifyState fun state => { state with rowCount }) := fun s => hR.rowCount s rowCount

theorem countRow : Within R Session.countRow :=
  hR.bind hR.get fun _ => hR.bind (hR.lift _) fun _ => hR.setRowCount _

variable (w : TreeWriters)

theorem indexUpdateRow (id : UInt64) (bytes : List UInt8) (remove : Bool) :
    Within R (Session.indexUpdateRow w id bytes remove) := by
  have hloop : ∀ rest done, Within R (Session.indexUpdateLoop w id bytes remove done rest) := by
    intro rest
    induction rest with
    | nil => exact fun done => hR.pure ()
    | cons idx rest ih =>
        intro done
        apply hR.bind hR.get
        intro s
        apply hR.bind (hR.inGuard _)
        exact fun idx => hR.bind (hR.setIndexes _) fun _ => ih _
  exact hR.bind hR.get fun s => hloop _ _

theorem insertRow (id : UInt64) (row : List UInt8) : Within R (Session.insertRow w id row) := by
  apply hR.bind hR.get
  intro s
  apply hR.bind (hR.inGuard _)
  intro root
  exact hR.bind (hR.setRoot root) fun _ => hR.bind (hR.indexUpdateRow w _ _ _) fun _ => hR.commit

theorem replaceRow (id : UInt64) (old new : List UInt8) :
    Within R (Session.replaceRow w id old new) := by
  apply hR.bind (hR.indexUpdateRow w _ _ _)
  intro _
  apply hR.bind hR.get
  intro s
  apply hR.bind (hR.inGuard _)
  intro _
  apply hR.bind (hR.inGuard _)
  intro root
  exact hR.bind (hR.setRoot root) fun _ => hR.bind (hR.indexUpdateRow w _ _ _) fun _ => hR.commit

theorem update (id : UInt64) (fields : RowData) : Within R (Session.update w id fields) := by
  apply hR.bind hR.get
  intro s
  apply hR.bind (hR.lift _)
  intro _
  apply hR.bind (hR.lift _)
  intro found
  cases found with
  | none => exact hR.pure _
  | some existingBytes =>
      apply hR.bind (hR.lift _)
      exact fun existing => hR.bind (hR.replaceRow w _ _ _) fun _ => hR.pure _

theorem delete (id : UInt64) : Within R (Session.delete w id) := by
  unfold Session.delete
  apply hR.bind hR.get
  intro s
  have hcount : ∀ deleted : Bool, Within R (do
      if deleted then do
        let s ← MonadState.get
        let rowCount ← subtract s.state.rowCount 1
        modifyState fun state => { state with rowCount }
      else Pure.pure ()
      Pure.pure deleted : StateResult Session Bool) := by
    intro deleted
    apply WithinOr.ite
    · apply hR.bind hR.get
      intro s
      apply hR.bind (hR.lift _)
      exact fun rowCount => hR.bind (hR.setRowCount rowCount) fun _ => hR.pure _
    · exact hR.pure _
  extract_lets rest
  have hrest : ∀ rowBytes : Option (List UInt8), Within R (rest rowBytes) := by
    intro rowBytes
    apply hR.bind (hR.inGuard _)
    intro deleted
    have hcommit := hR.bind hR.commit fun _ => hcount deleted
    cases rowBytes with
    | none => exact hcommit
    | some bytes => exact .ite (hR.bind (hR.indexUpdateRow w _ _ _) fun _ => hcommit) hcommit
  exact .ite (hrest none) (hR.bind (hR.lift _) hrest)

theorem updateWhere (filters : List Filter) (fields : RowData) :
    Within R (Session.updateWhere w filters fields) := by
  have hreinsert : ∀ updates, Within R (Session.reinsertRows w updates) := by
    intro updates
    induction updates with
    | nil => exact hR.pure _
    | cons update updates ih =>
        apply hR.bind hR.get
        intro s
        apply hR.bind (hR.inGuard _)
        intro _
        apply hR.bind (hR.inGuard _)
        exact fun root => hR.bind (hR.setRoot root) fun _ => ih
  have hreindex : ∀ updates, Within R (Session.reindexRows w updates) := by
    intro updates
    induction updates with
    | nil => exact hR.pure _
    | cons update updates ih =>
        apply hR.bind (hR.indexUpdateRow w _ _ _)
        exact fun _ => hR.bind (hR.indexUpdateRow w _ _ _) fun _ => ih
  apply hR.bind hR.get
  intro s
  apply hR.bind (hR.lift _)
  intro _
  apply hR.bind (hR.inGuard _)
  intro _
  apply hR.bind (hR.inGuard _)
  intro updates
  apply hR.bind (hreinsert _)
  intro _
  exact hR.bind (hreindex _) fun _ => hR.bind hR.commit fun _ => hR.pure _

theorem deleteWhere (filters : List Filter) : Within R (Session.deleteWhere w filters) := by
  have hunindex : ∀ deleted, Within R (Session.unindexRows w deleted) := by
    intro deleted
    induction deleted with
    | nil => exact hR.pure _
    | cons row deleted ih => exact hR.bind (hR.indexUpdateRow w _ _ _) fun _ => ih
  apply hR.bind hR.get
  intro s
  apply hR.bind (hR.inGuard _)
  intro _
  apply hR.bind (hR.inGuard _)
  intro deleted
  apply hR.bind (hunindex _)
  intro _
  apply hR.bind hR.commit
  intro _
  apply hR.bind hR.get
  intro s
  apply hR.bind (hR.lift _)
  exact fun rowCount => hR.bind (hR.setRowCount rowCount) fun _ => hR.pure _

end RowFrame

/-! ## All operations -/

namespace TableFrame

variable (hR : TableFrame R)

include hR

theorem modifyState (f : TableMeta → TableMeta) (hf : ∀ t, TableMeta.SameColumns t (f t)) :
    Within R (modifyState f) := fun s => hR.state s (f s.state) (hf s.state)

theorem setNextRowid (nextRowid : UInt64) :
    Within R (BoogyDb.modifyState fun state => { state with nextRowid }) :=
  hR.modifyState _ fun _ => .rest _ _ _ _ _

theorem replied {x : StateResult Session α} {reply : α → Reply} (hx : Within R x) :
    Within R (BoogyDb.replied reply x) := hR.rowFrame.bind hx fun _ => hR.rowFrame.pure _

variable (w : TreeWriters)

theorem insert (data : RowData) : Within R (Session.insert w data) := by
  have hrow := hR.rowFrame
  apply hrow.bind hrow.get
  intro s
  apply hrow.bind (hrow.lift _)
  intro _
  apply hrow.bind (hrow.lift _)
  intro nextRowid
  apply hrow.bind (hR.setNextRowid nextRowid)
  intro _
  apply WithinOr.ite (hrow.throw _)
  cases Session.enforceUniqueIndexes s.file s.state
      (encodeRow s.state.nextRowid (columnValues s.state data)) with
  | ok _ =>
      apply hrow.bind (hrow.insertRow w _ _)
      exact fun _ => hrow.bind hrow.countRow fun _ => hrow.pure _
  | error e =>
      cases e with
      | error e => exact hrow.bind (hR.modifyState _ fun _ => .rest _ _ _ _ _) fun _ => hrow.throw _
      | panic => exact hrow.throw _
      | overflow => exact hrow.throw _
      | unspecified => exact hrow.throw _

theorem insertWithId (rowid : UInt64) (data : RowData) :
    Within R (Session.insertWithId w rowid data) := by
  have hrow := hR.rowFrame
  have hlast : ∀ row, Within R (do Session.insertRow w rowid row; Session.countRow) :=
    fun row => hrow.bind (hrow.insertRow w _ _) fun _ => hrow.countRow
  apply hrow.bind hrow.get
  intro s
  apply hrow.bind (hrow.lift _)
  intro _
  apply WithinOr.ite (hrow.throw _)
  apply hrow.bind (hrow.lift _)
  intro _
  refine WithinOr.ite (hrow.bind (hrow.lift _) fun next => ?_) (hlast _)
  exact hrow.bind (hR.modifyState _ fun _ => .rest _ _ _ _ _) fun _ => hlast _

theorem insertMany (rows : List RowData) : Within R (Session.insertMany w rows) := by
  have hrow := hR.rowFrame
  have hloop : ∀ (rows : List RowData) root nextRowid ids,
      Within R (Session.insertManyLoop w rows root nextRowid ids) := by
    intro rows
    induction rows with
    | nil => exact fun _ _ _ => hrow.pure _
    | cons data rows ih =>
        intro root rowid ids
        apply hrow.bind hrow.get
        intro s
        apply hrow.bind (hrow.lift _)
        intro next
        apply WithinOr.ite (hrow.throw _)
        apply hrow.bind (hrow.inGuard _)
        exact fun root => hrow.bind (hrow.indexUpdateRow w _ _ _) fun _ => ih _ _ _
  apply hrow.bind hrow.get
  intro s
  apply hrow.bind (within_forM hrow.refl hrow.trans _ fun _ => hrow.lift _)
  intro _
  apply hrow.bind (hloop _ _ _ _)
  intro r
  apply hrow.bind hrow.commit
  intro _
  apply hrow.bind (hrow.lift _)
  exact fun rowCount => hrow.bind (hR.modifyState _ fun _ => .rest _ _ _ _ _) fun _ => hrow.pure _

theorem inPlace (call : RowCall) : Within R (call.inPlace w) := by
  have hrow := hR.rowFrame
  cases call with
  | insert data => exact hR.replied (hR.insert w data)
  | insertWithId rowid data => exact hR.replied (hR.insertWithId w rowid data)
  | insertMany rows => exact hR.replied (hR.insertMany w rows)
  | update id fields => exact hR.replied (hrow.update w id fields)
  | updateWhere filters fields => exact hR.replied (hrow.updateWhere w filters fields)
  | delete id => exact hR.replied (hrow.delete w id)
  | deleteWhere filters => exact hR.replied (hrow.deleteWhere w filters)

/-! ### The schema -/

theorem createIndex (table indexName : String) (columns : List String) (unique : Bool) :
    Within R (Session.createIndex w table indexName columns unique) := by
  have hrow := hR.rowFrame
  apply hrow.bind hrow.get
  intro s
  apply WithinOr.ite (hrow.throw _)
  apply hrow.bind (hrow.lift _)
  intro cols
  apply hrow.bind (hrow.lift _)
  intro all
  apply hrow.bind (hrow.inGuard _)
  intro root
  apply hrow.bind (hrow.inGuard _)
  exact fun rootPage => hrow.bind hrow.commit fun _ => hR.modifyState _ fun _ => .rest _ _ _ _ _

theorem dropIndex (indexName : String) : Within R (Session.dropIndex indexName) := by
  have hrow := hR.rowFrame
  apply hrow.bind hrow.get
  intro s
  cases s.state.indexes.findIdx? fun idx => idx.name = indexName with
  | none => exact hrow.throw _
  | some pos => exact hR.modifyState _ fun _ => .rest _ _ _ _ _

theorem addColumn (table : String) (column : ColumnDef)
    (hadd : ∀ s : Session, s.state.colNameToId column.name = none →
      R s { s with state := s.state.addColumn column }) :
    Within R (Session.addColumn table column) := by
  intro s
  unfold Session.addColumn
  refine wp_get_bind.mpr (wp_ite (fun _ => hR.refl s) fun hfree => ?_)
  refine wp_ite (fun _ => hR.refl s) fun _ => ?_
  exact hadd s (Option.not_isSome_iff_eq_none.mp hfree)

theorem renameColumn (table old new : String)
    (hrename : ∀ s : Session, s.state.colNameToId new = none → ∀ indexes,
      R s { s with state := { s.state.renameColumn old new with indexes } }) :
    Within R (Session.renameColumn table old new) := by
  intro s
  unfold Session.renameColumn
  refine wp_get_bind.mpr (wp_ite (fun _ => hR.refl s) fun _ => ?_)
  refine wp_ite (fun _ => hR.refl s) fun hfree => ?_
  exact hrename s (Option.not_isSome_iff_eq_none.mp hfree) _

theorem dropColumn (table name : String)
    (hdrop : ∀ s : Session, R s { s with state := s.state.dropColumn name }) :
    Within R (Session.dropColumn table name) := by
  intro s
  unfold Session.dropColumn
  refine wp_get_bind.mpr (wp_ite (fun _ => hR.refl s) fun _ => ?_)
  cases s.state.indexes.find? fun idx => decide (name ∈ idx.columns) with
  | none => exact hdrop s
  | some idx => exact hR.refl s

end TableFrame

end

end BoogyDb
