import BoogyDb.DbRuns

/-!
# Runs with checked insertions

What the watched writers ask of an insertion is not computable: a key is new when no set of keys
that the tree holds has it.  `TreeWriters.checked` asks for more, and reads it off the pages: the
leaf takes the cell as it is, and a deletion would not find the key.  What a call returns with
writers that ask for more, it returns with writers that ask for less (`WritersBelow.perform`), so
calls that return with the checked writers, one after the other, are a run (`Reaches.checked`).
-/

namespace BoogyDb

open Wp WriteGuard

section

variable [Crc32Fast]

/-! ## Writers that ask for less -/

/-- What the writers `w` return, `w'` return. -/
structure WritersBelow (w w' : TreeWriters) : Prop where
  insertRow : ∀ root rowid row, Below (w.insertRow root rowid row) (w'.insertRow root rowid row)
  updateRows : ∀ root pred updater,
    Below (w.updateRows root pred updater) (w'.updateRows root pred updater)
  insertKey : ∀ root key, Below (w.insertKey root key) (w'.insertKey root key)

/-- What a watched call returns, the call returns. -/
theorem watched_below_code (storable : UInt64 → List UInt8 → Prop) :
    WritersBelow (.watched storable) .code where
  insertRow root rowid row g _ _ h :=
    @watch_eq_ok g _ _ (fun g => InsertRoom g root rowid row ∧ storable rowid row) _ _ h
  updateRows _ _ _ _ _ _ h := watch_eq_ok h
  insertKey root key g _ _ h :=
    @watch_eq_ok g _ _
      (fun g => KeyIsNew g root key ∧ InsertFits g root key ∧ InsertSeparates g root key) _ _ h

section

variable {α : Type}

omit [Crc32Fast] in
theorem below_inGuard {x y : StateResult WriteGuard α} (h : Below x y) :
    Below (inGuard x) (inGuard y) := by
  intro s a s' hrun
  unfold inGuard at hrun ⊢
  cases hx : x s.file with
  | ok b file =>
      rw [hx] at hrun
      rw [h _ _ _ hx]
      exact hrun
  | error e file =>
      rw [hx] at hrun
      cases hrun

omit [Crc32Fast] in
theorem below_withGuard {x y : StateResult WriteGuard α} (h : Below x y) :
    Below (InTransaction.withGuard x) (InTransaction.withGuard y) := by
  intro s a s' hrun
  unfold InTransaction.withGuard at hrun ⊢
  cases hx : x s.guard with
  | ok b file =>
      rw [hx] at hrun
      rw [h _ _ _ hx]
      exact hrun
  | error e file =>
      rw [hx] at hrun
      cases hrun

omit [Crc32Fast] in
theorem below_withTable {x y : StateResult Session α} (h : Below x y) (table : String) :
    Below (Db.withTable table x) (Db.withTable table y) := by
  intro db a db' hrun
  unfold Db.withTable at hrun ⊢
  cases hname : db.tables.lookup table with
  | none =>
      rw [hname] at hrun
      cases hrun
  | some state =>
      rw [hname] at hrun
      dsimp only at hrun ⊢
      cases hx : x ⟨state, db.file, db.wal, db.durability, db.maxRowSize⟩ with
      | ok b s =>
          rw [hx] at hrun
          rw [h _ _ _ hx]
          exact hrun
      | error e s =>
          rw [hx] at hrun
          cases hrun

theorem below_inTransaction {x y : StateResult InTransaction α} (h : Below x y) :
    Below (Db.inTransaction x) (Db.inTransaction y) := by
  intro db a db' hrun
  have hall := h.bind (f := fun a => do InTransaction.commit; pure a) fun a => .refl _
  unfold Db.inTransaction at hrun ⊢
  cases hx : (do let a ← x; InTransaction.commit; pure a : StateResult InTransaction α) ⟨db, .new⟩ with
  | ok b s =>
      rw [hx] at hrun
      rw [hall _ _ _ hx]
      exact hrun
  | error e s =>
      rw [hx] at hrun
      cases hrun

end

namespace WritersBelow

variable {w w' : TreeWriters} (hw : WritersBelow w w')

include hw

/-! ### Calls in place -/

theorem indexUpdateLoop (rowid : UInt64) (bytes : List UInt8) (remove : Bool)
    (done rest : List IndexMeta) : Below (Session.indexUpdateLoop w rowid bytes remove done rest)
      (Session.indexUpdateLoop w' rowid bytes remove done rest) := by
  induction rest generalizing done with
  | nil => exact .refl _
  | cons idx rest ih =>
      refine (Below.refl _).bind fun s => (below_inGuard ?_).bind fun idx =>
        (Below.refl _).bind fun _ => ih _
      refine (Below.refl _).bind fun key => ?_
      cases key with
      | none => exact .refl _
      | some key => exact .ite (.refl _) ((hw.insertKey _ _).bind fun _ => .refl _)

theorem indexUpdateRow (rowid : UInt64) (bytes : List UInt8) (remove : Bool) :
    Below (Session.indexUpdateRow w rowid bytes remove)
      (Session.indexUpdateRow w' rowid bytes remove) :=
  (Below.refl _).bind fun _ => hw.indexUpdateLoop _ _ _ _ _

theorem sessionInsertRow (rowid : UInt64) (bytes : List UInt8) :
    Below (Session.insertRow w rowid bytes) (Session.insertRow w' rowid bytes) :=
  (Below.refl _).bind fun _ => (below_inGuard (hw.insertRow _ _ _)).bind fun _ =>
    (Below.refl _).bind fun _ => (hw.indexUpdateRow _ _ _).bind fun _ => .refl _

theorem insert (data : RowData) : Below (Session.insert w data) (Session.insert w' data) := by
  refine (Below.refl _).bind fun s => (Below.refl _).bind fun _ => (Below.refl _).bind fun _ =>
    (Below.refl _).bind fun _ => .ite (.refl _) ?_
  cases Session.enforceUniqueIndexes s.file s.state
      (encodeRow s.state.nextRowid (columnValues s.state data)) with
  | ok _ => exact (hw.sessionInsertRow _ _).bind fun _ => .refl _
  | error e => cases e <;> exact .refl _

theorem insertWithId (rowid : UInt64) (data : RowData) :
    Below (Session.insertWithId w rowid data) (Session.insertWithId w' rowid data) := by
  unfold Session.insertWithId
  refine (Below.refl _).bind fun s => (Below.refl _).bind fun _ => .ite (.refl _) ?_
  refine (Below.refl _).bind fun _ => ?_
  have hrest := (hw.sessionInsertRow rowid (encodeRow rowid (columnValues s.state data))).bind
    (f := fun _ => Session.countRow) fun _ => .refl _
  exact .ite ((Below.refl _).bind fun _ => (Below.refl _).bind fun _ => hrest)
    hrest

theorem insertManyLoop (rows : List RowData) (root : ℕ) (next : UInt64) (ids : List UInt64) :
    Below (Session.insertManyLoop w rows root next ids)
      (Session.insertManyLoop w' rows root next ids) := by
  induction rows generalizing root next ids with
  | nil => exact .refl _
  | cons data rows ih =>
      refine (Below.refl _).bind fun s => (Below.refl _).bind fun next => .ite (.refl _) ?_
      exact (below_inGuard (hw.insertRow _ _ _)).bind fun _ =>
        (hw.indexUpdateRow _ _ _).bind fun _ => ih _ _ _

theorem insertMany (rows : List RowData) :
    Below (Session.insertMany w rows) (Session.insertMany w' rows) :=
  (Below.refl _).bind fun _ => (Below.refl _).bind fun _ =>
    (hw.insertManyLoop _ _ _ _).bind fun _ => .refl _

theorem update (id : UInt64) (fields : RowData) :
    Below (Session.update w id fields) (Session.update w' id fields) := by
  refine (Below.refl _).bind fun s => (Below.refl _).bind fun _ => (Below.refl _).bind fun found => ?_
  cases found with
  | none => exact .refl _
  | some bytes =>
      refine (Below.refl _).bind fun _ => Below.bind ?_ fun _ => .refl _
      exact (hw.indexUpdateRow _ _ _).bind fun _ => (Below.refl _).bind fun _ =>
        (Below.refl _).bind fun _ => (below_inGuard (hw.insertRow _ _ _)).bind fun _ =>
        (Below.refl _).bind fun _ => (hw.indexUpdateRow _ _ _).bind fun _ => .refl _

theorem delete (id : UInt64) : Below (Session.delete w id) (Session.delete w' id) := by
  unfold Session.delete
  refine (Below.refl _).bind fun s => ?_
  extract_lets rest rest'
  have hrest : ∀ bytes, Below (rest bytes) (rest' bytes) := by
    intro bytes
    refine (Below.refl _).bind fun deleted => ?_
    cases bytes with
    | none => exact .refl _
    | some bytes =>
        exact .ite ((hw.indexUpdateRow _ _ _).bind fun _ => .refl _) (.refl _)
  exact .ite (hrest none) ((Below.refl _).bind hrest)

theorem reinsertRows (updates : List BTreeWriter.RowUpdate) :
    Below (Session.reinsertRows w updates) (Session.reinsertRows w' updates) := by
  induction updates with
  | nil => exact .refl _
  | cons update updates ih =>
      exact (Below.refl _).bind fun _ => (Below.refl _).bind fun _ =>
        (below_inGuard (hw.insertRow _ _ _)).bind fun _ => (Below.refl _).bind fun _ => ih

theorem reindexRows (updates : List BTreeWriter.RowUpdate) :
    Below (Session.reindexRows w updates) (Session.reindexRows w' updates) := by
  induction updates with
  | nil => exact .refl _
  | cons update updates ih =>
      exact (hw.indexUpdateRow _ _ _).bind fun _ => (hw.indexUpdateRow _ _ _).bind fun _ => ih

theorem updateWhere (filters : List Filter) (fields : RowData) :
    Below (Session.updateWhere w filters fields) (Session.updateWhere w' filters fields) :=
  (Below.refl _).bind fun _ => (Below.refl _).bind fun _ => (Below.refl _).bind fun _ =>
    (below_inGuard (hw.updateRows _ _ _)).bind fun _ => (hw.reinsertRows _).bind fun _ =>
    (hw.reindexRows _).bind fun _ => .refl _

theorem unindexRows (deleted : List (UInt64 × List UInt8)) :
    Below (Session.unindexRows w deleted) (Session.unindexRows w' deleted) := by
  induction deleted with
  | nil => exact .refl _
  | cons row deleted ih => exact (hw.indexUpdateRow _ _ _).bind fun _ => ih

theorem deleteWhere (filters : List Filter) :
    Below (Session.deleteWhere w filters) (Session.deleteWhere w' filters) :=
  (Below.refl _).bind fun _ => (Below.refl _).bind fun _ => (Below.refl _).bind fun _ =>
    (hw.unindexRows _).bind fun _ => .refl _

theorem inPlace (call : RowCall) : Below (call.inPlace w) (call.inPlace w') := by
  cases call with
  | insert data => exact (hw.insert _).bind fun _ => .refl _
  | insertWithId rowid data => exact (hw.insertWithId _ _).bind fun _ => .refl _
  | insertMany rows => exact (hw.insertMany _).bind fun _ => .refl _
  | update id fields => exact (hw.update _ _).bind fun _ => .refl _
  | updateWhere filters fields => exact (hw.updateWhere _ _).bind fun _ => .refl _
  | delete id => exact (hw.delete _).bind fun _ => .refl _
  | deleteWhere filters => exact (hw.deleteWhere _).bind fun _ => .refl _

omit [Crc32Fast] in
theorem populateIndex (indexName : String) (cols : List (UInt16 × ColumnType)) (unique : Bool)
    (rows : List (UInt64 × List UInt8)) (seen : List (List UInt8)) (root : ℕ) :
    Below (Session.populateIndex w indexName cols unique rows seen root)
      (Session.populateIndex w' indexName cols unique rows seen root) := by
  induction rows generalizing seen root with
  | nil => exact .refl _
  | cons row rows ih =>
      refine (Below.refl _).bind fun vals => .ite (.refl _) ?_
      dsimp only
      cases encodeCompositeIndexKey vals row.1 with
      | none => exact ih _ _
      | some key => exact (hw.insertKey _ _).bind fun _ => ih _ _

theorem createIndex (table indexName : String) (columns : List String) (unique : Bool) :
    Below (Session.createIndex w table indexName columns unique)
      (Session.createIndex w' table indexName columns unique) :=
  (Below.refl _).bind fun _ => .ite (.refl _) <| (Below.refl _).bind fun _ =>
    (Below.refl _).bind fun _ => (Below.refl _).bind fun _ =>
    (below_inGuard (hw.populateIndex _ _ _ _ _ _)).bind fun _ => .refl _

/-! ### Calls in a transaction -/

omit [Crc32Fast] in
theorem insertEntries (rowid : UInt64) (bytes : List UInt8) (infos : List IndexInfo) :
    Below (insertEntries w rowid bytes infos) (insertEntries w' rowid bytes infos) := by
  induction infos with
  | nil => exact .refl _
  | cons info infos ih =>
      unfold BoogyDb.insertEntries
      refine (Below.refl _).bind fun vals => ?_
      cases encodeCompositeIndexKey vals rowid with
      | some key => exact (hw.insertKey _ _).bind fun _ => ih.bind fun _ => .refl _
      | none => exact (Below.refl _).bind fun _ => ih.bind fun _ => .refl _

theorem replaceEntries (rowid : UInt64) (oldBytes newBytes : List UInt8)
    (infos : List IndexInfo) : Below (replaceEntries w rowid oldBytes newBytes infos)
      (replaceEntries w' rowid oldBytes newBytes infos) := by
  induction infos with
  | nil => exact .refl _
  | cons info infos ih =>
      unfold BoogyDb.replaceEntries
      refine (Below.refl _).bind fun _ => (Below.refl _).bind fun vals => ?_
      cases encodeCompositeIndexKey vals rowid with
      | some key => exact (hw.insertKey _ _).bind fun _ => ih.bind fun _ => .refl _
      | none => exact (Below.refl _).bind fun _ => ih.bind fun _ => .refl _

omit [Crc32Fast] in
theorem putRow (rowid : UInt64) (bytes : List UInt8) (root : ℕ) (infos : List IndexInfo) :
    Below (putRow w rowid bytes root infos) (putRow w' rowid bytes root infos) :=
  (hw.insertRow _ _ _).bind fun _ => (hw.insertEntries _ _ _).bind fun _ => .refl _

theorem mergeRow (id : UInt64) (fields : List Column) (root : ℕ) (infos : List IndexInfo) :
    Below (mergeRow w id fields root infos) (mergeRow w' id fields root infos) := by
  refine (Below.refl _).bind fun found => ?_
  cases found with
  | none => exact .refl _
  | some oldBytes =>
      exact (Below.refl _).bind fun _ => (hw.replaceEntries _ _ _ _).bind fun _ =>
        (Below.refl _).bind fun _ => (hw.insertRow _ _ _).bind fun _ => .refl _

theorem insertAs (table : String) (state : TableMeta) (rowid : UInt64) (data : RowData)
    (freshNext : UInt64) (nextRowid : Result UInt64) :
    Below (InTransaction.insertAs w table state rowid data freshNext nextRowid)
      (InTransaction.insertAs w' table state rowid data freshNext nextRowid) :=
  (Below.refl _).bind fun _ => .ite (.refl _) <| (Below.refl _).bind fun _ =>
    (below_withGuard (hw.putRow _ _ _ _)).bind fun _ => .refl _

theorem txInsert (table : String) (data : RowData) :
    Below (InTransaction.insert w table data) (InTransaction.insert w' table data) :=
  (Below.refl _).bind fun _ => (Below.refl _).bind fun _ => (Below.refl _).bind fun _ =>
    (hw.insertAs _ _ _ _ _ _).bind fun _ => .refl _

theorem txInsertWithId (table : String) (rowid : UInt64) (data : RowData) :
    Below (InTransaction.insertWithId w table rowid data)
      (InTransaction.insertWithId w' table rowid data) :=
  (Below.refl _).bind fun _ => (Below.refl _).bind fun _ => (Below.refl _).bind fun _ =>
    hw.insertAs _ _ _ _ _ _

theorem txUpdate (table : String) (id : UInt64) (fields : RowData) :
    Below (InTransaction.update w table id fields) (InTransaction.update w' table id fields) :=
  (Below.refl _).bind fun _ => (Below.refl _).bind fun _ => (Below.refl _).bind fun _ =>
    (below_withGuard (hw.mergeRow _ _ _ _)).bind fun _ => .refl _

omit [Crc32Fast] hw in
theorem countCalls {x y : UInt64 → StateResult InTransaction Bool} (hx : ∀ id, Below (x id) (y id))
    (ids : List UInt64) :
    Below (InTransaction.countCalls x ids) (InTransaction.countCalls y ids) := by
  induction ids with
  | nil => exact .refl _
  | cons id ids ih => exact (hx id).bind fun _ => ih.bind fun _ => .refl _

theorem txUpdateWhere (table : String) (filters : List Filter) (fields : RowData) :
    Below (InTransaction.updateWhere w table filters fields)
      (InTransaction.updateWhere w' table filters fields) :=
  (Below.refl _).bind fun _ => (Below.refl _).bind fun _ => (Below.refl _).bind fun _ =>
    countCalls (fun _ => hw.txUpdate _ _ _) _

theorem upsert (table : String) (key set : RowData) :
    Below (InTransaction.upsert w table key set) (InTransaction.upsert w' table key set) := by
  refine (Below.refl _).bind fun _ => .ite ((Below.refl _).bind fun existing => ?_) (.refl _)
  cases existing.rows with
  | cons row rows => exact (hw.txUpdate _ _ _).bind fun _ => .refl _
  | nil => exact hw.txInsert _ _

theorem upsertIncrement (table : String) (key : RowData) (counter : String) (delta : Value)
    (set : RowData) : Below (InTransaction.upsertIncrement w table key counter delta set)
      (InTransaction.upsertIncrement w' table key counter delta set) := by
  unfold InTransaction.upsertIncrement
  extract_lets rest rest'
  -- what follows the check of the delta
  have hrest : Below (rest ()) (rest' ()) := by
    refine (Below.refl _).bind fun existing => ?_
    cases existing.rows with
    | cons row rows =>
        refine (Below.refl _).bind fun state => (Below.refl _).bind fun current => ?_
        refine (Below.refl _).bind fun newValue => Below.bind ?_ fun _ => .refl _
        exact hw.txUpdate _ _ _
    | nil => exact hw.txInsert _ _
  cases delta with
  | integer d => exact hrest
  | real d => exact hrest
  | _ => exact fun _ _ _ hrun => nomatch hrun

theorem inTransaction (table : String) (call : RowCall) :
    Below (call.inTransaction w table) (call.inTransaction w' table) := by
  cases call with
  | insert data => exact (hw.txInsert _ _).bind fun _ => .refl _
  | insertWithId rowid data => exact (hw.txInsertWithId _ _ _).bind fun _ => .refl _
  | insertMany rows => exact (Below.mapM _ fun _ => hw.txInsert _ _).bind fun _ => .refl _
  | update id fields => exact (hw.txUpdate _ _ _).bind fun _ => .refl _
  | updateWhere filters fields => exact (hw.txUpdateWhere _ _ _).bind fun _ => .refl _
  | delete id => exact .refl _
  | deleteWhere filters => exact .refl _

/-! ### Calls -/

theorem performRow (table : String) (call : RowCall) :
    Below (call.perform w table) (call.perform w' table) :=
  (Below.refl _).bind fun _ => .ite (below_inTransaction (hw.inTransaction _ _))
    (below_withTable (hw.inPlace _) _)

/-- **What a call returns with writers that ask for more, it returns with these.** -/
theorem perform (call : Call) : Below (call.perform w) (call.perform w') := by
  cases call with
  | row table call => exact hw.performRow _ _
  | upsert table key set => exact (below_inTransaction (hw.upsert _ _ _)).bind fun _ => .refl _
  | upsertIncrement table key counter delta set =>
      exact (below_inTransaction (hw.upsertIncrement _ _ _ _ _)).bind fun _ => .refl _
  | createIndexEx table indexName columns unique =>
      refine Below.bind (.ite (.refl _) ?_) fun _ => .refl _
      exact (below_withTable (hw.createIndex _ _ _ _) _).bind fun _ => .refl _
  | _ => exact .refl _

end WritersBelow

/-! ## Checked insertions -/

/-- `x`, where the check passes. -/
def checkFirst {α : Type} (c : WriteGuard → Bool) (x : StateResult WriteGuard α) :
    StateResult WriteGuard α := fun g => if c g then x g else .error .panic g

/-- The leaf takes the row as it is, and the row is inline. -/
def rowFits (root : ℕ) (rowid : UInt64) (row : List UInt8) (g : WriteGuard) : Bool :=
  (reachedLeaf g root rowid).toOption.all (fun r => neededSize r.2 row.length ≤ pageSize) &&
    (extractId row).toOption = some rowid && row.length ≤ maxReassembleSize && !hasOverflow row

/-- The leaf takes the key, which is not in the tree. -/
def keyFits (root : ℕ) (key : List UInt8) (g : WriteGuard) : Bool :=
  (reachedIdxLeaf g root key).toOption.all
      (fun r => neededSize r.2 (2 + key.length) ≤ pageSize) &&
    match IndexTreeWriter.delete root key g with
    | .ok found _ => !found
    | .error .. => false

/-- The insertions that pass a check; no bulk updates. -/
def TreeWriters.checked : TreeWriters where
  insertRow root rowid row := checkFirst (rowFits root rowid row) (BTreeWriter.insert root rowid row)
  updateRows root pred updater :=
    checkFirst (fun _ => false) (BTreeWriter.updateMatching root pred updater)
  insertKey root key := checkFirst (keyFits root key) (IndexTreeWriter.insert root key)

omit [Crc32Fast] in
theorem below_watch {α : Type} {c : WriteGuard → Bool} {p : WriteGuard → Prop}
    {x : StateResult WriteGuard α} (h : ∀ g, c g = true → p g) :
    Below (checkFirst c x) (watch p x) := by
  intro g a g' hrun
  unfold checkFirst at hrun
  by_cases hc : c g = true
  · rw [if_pos hc] at hrun
    rw [watch, if_pos (h g hc)]
    exact hrun
  · rw [if_neg hc] at hrun
    cases hrun

/-- A leaf with free space has room. -/
theorem insertRoom_of_size {g : WriteGuard} {root : ℕ} {id : UInt64} {row : List UInt8}
    (h : (reachedLeaf g root id).toOption.all (fun r => neededSize r.2 row.length ≤ pageSize)) :
    InsertRoom g root id row := by
  intro pageNo page pos hreached _ hlt
  rw [hreached] at h
  exact absurd (of_decide_eq_true h) (Nat.not_le.mpr hlt)

/-- A key that a deletion does not find is new. -/
theorem keyIsNew_of_not_found {g g' : WriteGuard} {root : ℕ} {key : List UInt8}
    (h : IndexTreeWriter.delete root key g = .ok false g') : KeyIsNew g root key := by
  intro s hs hmem
  have hdelete : wp (IndexTreeWriter.delete root key) _ (fun _ _ => False) g := wp_delete_keys hs
  obtain ⟨hfound, -⟩ := hdelete.ok h
  cases hfound.mpr hmem

omit [Crc32Fast] in
theorem ok_of_toOption {α : Type} {x : Result α} {a : α} (h : x.toOption = some a) :
    x = .ok a := by
  cases x with
  | ok b => exact congrArg Except.ok (Option.some.inj h)
  | error e => cases h

/-- An insertion that passes its check is a watched insertion. -/
theorem checked_below_watched : WritersBelow .checked (.watched Storable) where
  insertRow root rowid row := by
    refine below_watch fun g hfits => ?_
    simp only [rowFits, Bool.and_eq_true, decide_eq_true_eq, Bool.not_eq_true'] at hfits
    obtain ⟨⟨⟨hsize, hid⟩, hlen⟩, hplain⟩ := hfits
    exact ⟨insertRoom_of_size hsize, ok_of_toOption hid, hlen, fun _ => hplain⟩
  updateRows root pred updater :=
    below_watch fun g hfalse => absurd hfalse Bool.false_ne_true
  insertKey root key := by
    refine below_watch fun g hfits => ?_
    simp only [keyFits, Bool.and_eq_true] at hfits
    obtain ⟨hleaf, hdelete⟩ := hfits
    have hsmall : ∀ pageNo page, reachedIdxLeaf g root key = .ok (pageNo, page) →
        ¬ NeedsSplit page key := by
      intro pageNo page hreached
      rw [hreached] at hleaf
      exact Nat.not_lt_of_le (of_decide_eq_true hleaf)
    refine ⟨?_, fun _ _ _ hreached hneeds => absurd hneeds (hsmall _ _ hreached),
      fun _ _ _ hreached hneeds => absurd hneeds (hsmall _ _ hreached)⟩
    split at hdelete
    · rename_i found g' hrun
      cases found with
      | false => exact keyIsNew_of_not_found hrun
      | true => cases hdelete
    · cases hdelete

/-! ## Checked runs -/

/-- A rename of a column. -/
def Call.renames : Call → Bool
  | .renameColumn .. => true
  | _ => false

/-- A step that can be computed: a call that returns, one that fails in its checks, and a
transaction. -/
inductive CheckedStep
  | returned (call : Call)
  | refused (call : Call)
  | transaction (calls : List (String × RowCall)) (commits : Bool)

/-- A transaction after row operations that return. -/
def InTransaction.checked (s : InTransaction) : List (String × RowCall) → Option InTransaction
  | [] => some s
  | (table, call) :: calls =>
    match call.inTransaction .checked table s with
    | .ok _ s' => if call.single then s'.checked calls else none
    | .error .. => none

/-- The database after a step, where the step can be taken. -/
def CheckedStep.run (db : Db) : CheckedStep → Option Db
  | .returned call =>
    match call.perform .checked db with
    | .ok _ db' => if call.renames then none else some db'
    | .error .. => none
  | .refused call =>
    match call.body .code db, call.checks db with
    | none, .error _ => some (stateAfter (call.perform .code) db)
    | _, _ => none
  | .transaction calls commits => do
    let s ← db.beginAcid.checked calls
    if commits then
      match InTransaction.commit s with
      | .ok _ s' => some s'.db
      | .error .. => none
    else some s.rollback

/-- The database after checked steps from the first one. -/
def checkedRun (steps : List CheckedStep) : Option Db := steps.foldlM CheckedStep.run newDb

theorem InTransaction.checked_run {s s' : InTransaction} {calls : List (String × RowCall)}
    (h : s.checked calls = some s') : TxRun Storable s s' := by
  induction calls generalizing s with
  | nil =>
      obtain rfl := Option.some.inj h
      exact .refl
  | cons call calls ih =>
      unfold InTransaction.checked at h
      split at h
      · rename_i reply s₁ hrun
        split at h
        · rename_i hsingle
          have hwatched := checked_below_watched.inTransaction call.1 call.2 _ _ _ hrun
          exact .head (.returned ⟨call.1, call.2, reply, hsingle, hwatched⟩) (ih h)
        · cases h
      · cases h

/-- A checked step is a step. -/
theorem CheckedStep.dbStep {db db' : Db} {step : CheckedStep} (h : step.run db = some db') :
    DbStep Storable True db db' := by
  cases step with
  | returned call =>
      rw [CheckedStep.run] at h
      split at h
      · rename_i reply db₁ hrun
        split at h
        · cases h
        · rename_i hrename
          obtain rfl := Option.some.inj h
          refine .returned (fun _ => ?_) (checked_below_watched.perform call _ _ _ hrun)
          cases call with
          | renameColumn table old new => exact absurd rfl hrename
          | _ => trivial
      · cases h
  | refused call =>
      rw [CheckedStep.run] at h
      split at h
      · rename_i e hbody hchecks
        obtain rfl := Option.some.inj h
        exact .refused hbody hchecks
      · cases h
  | transaction calls commits =>
      obtain ⟨s, hcalls, h⟩ := Option.bind_eq_some_iff.mp h
      have hrun := InTransaction.checked_run hcalls
      split at h
      · split at h
        · rename_i s' hcommit
          obtain rfl := Option.some.inj h
          exact .committed hrun hcommit
        · cases h
      · obtain rfl := Option.some.inj h
        exact .dropped hrun

theorem dbSteps_of_checked {steps : List CheckedStep} {db db' : Db}
    (h : steps.foldlM CheckedStep.run db = some db') :
    Relation.ReflTransGen (DbStep Storable True) db db' := by
  induction steps generalizing db with
  | nil =>
      obtain rfl := Option.some.inj h
      exact .refl
  | cons step steps ih =>
      rw [List.foldlM_cons] at h
      obtain ⟨db₁, hstep, hrest⟩ := Option.bind_eq_some_iff.mp h
      exact .head (CheckedStep.dbStep hstep) (ih hrest)

/-- **A database after checked steps is reached.** -/
theorem Reaches.checked {steps : List CheckedStep} {db : Db} (h : checkedRun steps = some db) :
    Reaches Storable True db := ⟨newDb, open_new, dbSteps_of_checked h⟩

/-- A run that can be computed, with what can be computed of its end. -/
theorem exists_checkedRun {steps : List CheckedStep} {p : Db → Prop} [DecidablePred p]
    (h : (checkedRun steps).any (fun db => decide (p db)) = true) :
    ∃ db, Reaches Storable True db ∧ p db := by
  obtain ⟨db, hrun, hp⟩ := (Option.any_eq_true _ _).mp h
  exact ⟨db, Reaches.checked hrun, of_decide_eq_true hp⟩

end

/-! ## Runs of fixed calls -/

/-- The row is inserted, and the tree finds room for it. -/
theorem insertFlag_returns : letI := crc32Ieee
    ∃ reply, insertFlag.perform (.watched Storable) (stateAfter (createFlags.perform .code) newDb) =
      .ok reply (newDb.after [createFlags, insertFlag]) := by
  let := crc32Ieee
  obtain ⟨reply, hinsert⟩ := exists_of_attempt (x := insertFlag.perform .checked)
    (s := stateAfter (createFlags.perform .code) newDb) (by decide +kernel)
  have hwatched := checked_below_watched.perform insertFlag _ _ _ hinsert
  have hcode := (watched_below_code Storable).perform insertFlag _ _ _ hwatched
  refine ⟨reply, hwatched.trans (congrArg _ ?_)⟩
  rw [Db.after_cons, Db.after_cons, Db.after_nil]
  unfold stateAfter at hcode ⊢
  rw [hcode]

/-- A table with a column of numbers. -/
def createNumbers (table : String) : Call :=
  .createTable table [⟨"n", .integer, true, false, none, false⟩]

def insertNumber (n : Int64) : RowCall := .insert [("n", .integer n)]

/-- An index on the column of the first table. -/
def indexNumbers : Call := .createIndexEx "t" "byN" ["n"] false

/-- Two tables, the first with an index that is created when it has a row; a row id is refused
because it is taken, and a transaction inserts a row into each table. -/
def numbersRun : List CheckedStep :=
  [.returned (createNumbers "t"), .returned (.row "t" (insertNumber 5)), .returned indexNumbers,
    .returned (createNumbers "u"), .refused (.row "t" (.insertWithId 1 [("n", .integer 3)])),
    .transaction [("t", insertNumber 9), ("u", insertNumber 7)] true]

/-- The first row of the first table. -/
def firstNumber : UInt64 × List UInt8 :=
  (1, [1, 0, 0, 0, 0, 0, 0, 0, 1, 0, 0, 0, 0, 0, 2, 5, 0, 0, 0, 0, 0, 0, 0])

/-- The row that the transaction inserts there. -/
def secondNumber : UInt64 × List UInt8 :=
  (2, [2, 0, 0, 0, 0, 0, 0, 0, 1, 0, 0, 0, 0, 0, 2, 9, 0, 0, 0, 0, 0, 0, 0])

def storedNumbers : List (UInt64 × List UInt8) := [firstNumber, secondNumber]

/-- The end of the run. -/
theorem numbersRun_ends : letI := crc32Ieee
    ∃ (db : Db) (t u : TableMeta), Reaches Storable True db ∧
      (db.tables.lookup "t" = some t ∧ t.rowCount = 2 ∧ t.nextRowid = 3 ∧
        t.indexes.map IndexMeta.columns = [["n"]] ∧
        BTreeReader.scanAll db.file t.rootPage = .ok storedNumbers) ∧
      (db.tables.lookup "u" = some u ∧ u.rowCount = 1 ∧ u.nextRowid = 2) ∧
      WriteGuard.bound db.beginAcid.guard < pageNoLimit := by
  let := crc32Ieee
  obtain ⟨db, hreaches, ht, hu, hbound⟩ := @exists_checkedRun _ numbersRun
    (fun db => ((db.tables.lookup "t").any fun t => t.rowCount = 2 ∧ t.nextRowid = 3 ∧
        t.indexes.map IndexMeta.columns = [["n"]] ∧
        (BTreeReader.scanAll db.file t.rootPage).toOption = some storedNumbers) ∧
      ((db.tables.lookup "u").any fun u => u.rowCount = 1 ∧ u.nextRowid = 2) ∧
      WriteGuard.bound db.beginAcid.guard < pageNoLimit) _ (by decide +kernel)
  obtain ⟨t, htname, ht⟩ := (Option.any_eq_true _ _).mp ht
  obtain ⟨u, huname, hu⟩ := (Option.any_eq_true _ _).mp hu
  obtain ⟨hcount, hnext, hindexes, hscan⟩ := of_decide_eq_true ht
  exact ⟨db, t, u, hreaches, ⟨htname, hcount, hnext, hindexes, ok_of_toOption hscan⟩,
    ⟨huname, of_decide_eq_true hu⟩, hbound⟩

end BoogyDb
