import BoogyDb.Calls
import BoogyDb.Overlay
import BoogyDb.ScanBatch

/-!
# The calls of a transaction

`TxCall` lists the calls of an `AcidTransaction` besides `commit`.  A transaction is a run of
such calls, each of which may fail, and then a commit or nothing.

A call changes the database only while it holds the write guard, and empties the overlay
when it leaves (`Untouched`).  Only a panic under the guard leaves pages there (`Abandoned`).
-/

namespace BoogyDb

open Wp WriteGuard

inductive TxCall
  | row (table : String) (call : RowCall)
  | upsert (table : String) (key set : RowData)
  | upsertIncrement (table : String) (key : RowData) (counter : String) (delta : Value)
      (set : RowData)
  | get (table : String) (id : UInt64)
  | find (table : String) (opts : FindOptions)
  | countWith (table : String) (filters : List Filter) (orGroups : List (List Filter))
  | scanBatch (table : String) (filters : List Filter) (orGroups : List (List Filter))
      (order : ScanOrder) (after : Option ScanKey) (limit : UInt32)

/-- What a call of a transaction returns. -/
inductive TxReply
  | wrote (reply : Reply)
  | row (row : Option Row)
  | found (result : FindResult)
  | counted (n : UInt64)
  | batch (batch : ScanBatch)
deriving DecidableEq

/-- What `x` returns, as a reply. -/
def answered {σ α : Type} (reply : α → TxReply) (x : StateResult σ α) : StateResult σ TxReply := do
  let a ← x
  pure (reply a)

/-- The state a call leaves, whether it returned or failed. -/
def stateAfter {σ α : Type} (x : StateResult σ α) (s : σ) : σ :=
  match x s with
  | .ok _ s' => s'
  | .error _ s' => s'

section

variable [Crc32Fast] (w : TreeWriters)

def TxCall.perform : TxCall → StateResult InTransaction TxReply
  | .row table call => answered .wrote (call.inTransaction w table)
  | .upsert table key set =>
      answered (fun id => .wrote (.rowid id)) (InTransaction.upsert w table key set)
  | .upsertIncrement table key counter delta set =>
      answered (fun id => .wrote (.rowid id))
        (InTransaction.upsertIncrement w table key counter delta set)
  | .get table id => answered .row (InTransaction.get? table id)
  | .find table opts => answered .found (InTransaction.find table opts)
  | .countWith table filters orGroups =>
      answered .counted (InTransaction.countWith table filters orGroups)
  | .scanBatch table filters orGroups order after limit =>
      answered .batch (InTransaction.scanBatch table filters orGroups order after limit)

end

/-- `begin`. -/
def Db.beginAcid (db : Db) : InTransaction := ⟨db, .new⟩

/-- A transaction that is dropped: its pages and deltas go with it. -/
def InTransaction.rollback (s : InTransaction) : Db := s.db

/-! ## What a call leaves of the database -/

/-- The database stays, but for pages in the shared overlay that are gone. -/
def Untouched (s s' : InTransaction) : Prop :=
  s'.db = s.db ∨ s'.db = { s.db with file := WriteGuard.discard s.db.file }

theorem Untouched.refl (s : InTransaction) : Untouched s s := .inl rfl

theorem Untouched.trans {s₁ s₂ s₃ : InTransaction} (h : Untouched s₁ s₂) (h' : Untouched s₂ s₃) :
    Untouched s₁ s₃ := by
  rcases h with h | h
  · rwa [Untouched, ← h]
  · rw [Untouched, h] at h'
    exact .inr (h'.elim id id)

/-- The database stays, but for the shared overlay and its count of new pages. -/
def Abandoned (s s' : InTransaction) : Prop :=
  ∃ w, s'.db = { s.db with file := { s.db.file with writeState := w } }

theorem Untouched.abandoned {s s' : InTransaction} (h : Untouched s s') : Abandoned s s' := by
  rcases h with h | h
  · exact ⟨s.db.file.writeState, h⟩
  · exact ⟨⟨∅, 0⟩, h⟩

theorem Abandoned.trans {s₁ s₂ s₃ : InTransaction} (h : Abandoned s₁ s₂) (h' : Abandoned s₂ s₃) :
    Abandoned s₁ s₃ := by
  obtain ⟨w, hw⟩ := h
  obtain ⟨w', hw'⟩ := h'
  exact ⟨w', by rw [hw', hw]⟩

/-- If the overlay is empty before and after, the database stays. -/
theorem Abandoned.db_eq {s s' : InTransaction} (h : Abandoned s s')
    (hclean : s.db.file.writeState = ⟨∅, 0⟩) (hclean' : s'.db.file.writeState = ⟨∅, 0⟩) :
    s'.db = s.db := by
  obtain ⟨w, hdb⟩ := h
  rw [hdb] at hclean'
  have hw : w = s.db.file.writeState := hclean'.trans hclean.symm
  rw [hdb, hw]

/-- If nothing is in the shared overlay, the database stays. -/
theorem Untouched.db_eq {s s' : InTransaction} (h : Untouched s s')
    (hclean : s.db.file.writeState = ⟨∅, 0⟩) : s'.db = s.db := by
  have hdiscard : WriteGuard.discard s.db.file = s.db.file := by
    unfold WriteGuard.discard
    rw [← hclean]
  rcases h with h | h
  · exact h
  · rw [h, hdiscard]

/-- What a program that fails leaves of the database. -/
def LeftBy (s : InTransaction) (e : Fault) (s' : InTransaction) : Prop :=
  if e.isPanic then Abandoned s s' else Untouched s s'

theorem LeftBy.of_untouched {s s' : InTransaction} {e : Fault} (h : Untouched s s') :
    LeftBy s e s' := by
  unfold LeftBy
  split
  · exact h.abandoned
  · exact h

theorem LeftBy.abandoned {s s' : InTransaction} {e : Fault} (h : LeftBy s e s') :
    Abandoned s s' := by
  unfold LeftBy at h
  split at h
  · exact h
  · exact h.abandoned

theorem LeftBy.trans {s₁ s₂ s₃ : InTransaction} {e : Fault} (h : Untouched s₁ s₂)
    (h' : LeftBy s₂ e s₃) : LeftBy s₁ e s₃ := by
  unfold LeftBy at h' ⊢
  split at h'
  · rw [if_pos ‹_›]
    exact h.abandoned.trans h'
  · rw [if_neg ‹_›]
    exact h.trans h'

/-- A program that leaves the database as it finds it, unless it panics under the guard. -/
abbrev LeavesDb {α : Type} (x : StateResult InTransaction α) : Prop := WithinOr Untouched LeftBy x

theorem LeavesDb.abandons {α : Type} {x : StateResult InTransaction α} (hx : LeavesDb x) :
    Within Abandoned x := fun s =>
  (hx s).mono (fun _ _ h => h.abandoned) fun _ _ h => h.abandoned

/-! ## Reads

A read takes the pages of the transaction into the overlay and out again. -/

theorem InTransaction.leave_guard {s : InTransaction} (hclean : s.db.file.writeState = ⟨∅, 0⟩) :
    s.leave s.guard = s := by
  have hfile : s.guard.discard = s.db.file := by
    show { s.db.file with writeState := ⟨∅, 0⟩ } = s.db.file
    rw [← hclean]
  have hdirty : s.guard.writeState.dirty = s.tx.privateDirty := by
    show s.db.file.writeState.dirty ∪ s.tx.privateDirty = _
    rw [hclean]
    exact AList.empty_union
  rw [InTransaction.leave, hfile, hdirty]
  rfl

/-- A panic before anything was in the overlay. -/
theorem InTransaction.abandon_guard (s : InTransaction) (hclean : s.db.file.writeState = ⟨∅, 0⟩)
    (hleft : (s.abandon s.guard).db.file.writeState = ⟨∅, 0⟩) : s.abandon s.guard = s := by
  have hstate : s.guard.writeState = ⟨∅, 0⟩ := hleft
  have hfile : s.guard = s.db.file := by
    show { s.db.file with writeState := s.guard.writeState } = s.db.file
    rw [hstate, ← hclean]
  have hprivate : s.tx.privateDirty = ∅ := by
    have hdirty : s.db.file.writeState.dirty ∪ s.tx.privateDirty = ∅ :=
      congrArg WriteState.dirty hstate
    rw [hclean] at hdirty
    exact AList.empty_union.symm.trans hdirty
  unfold InTransaction.abandon
  rw [hfile, ← hprivate]

/-- A read under the guard. -/
theorem withGuard_read {α : Type} {s : InTransaction} (hclean : s.db.file.writeState = ⟨∅, 0⟩)
    {f : WriteGuard → Result α} {a : α} (hf : f s.guard = .ok a) :
    InTransaction.withGuard (readOnly f) s = .ok a s := by
  have hleave := InTransaction.leave_guard hclean
  unfold InTransaction.withGuard readOnly
  rw [hf]
  exact congrArg (EStateM.Result.ok a) hleave

/-- If nothing is in the shared overlay, the transaction stays too. -/
def Unchanged (s s' : InTransaction) : Prop :=
  Untouched s s' ∧ (s.db.file.writeState = ⟨∅, 0⟩ → s' = s)

theorem Unchanged.refl (s : InTransaction) : Unchanged s s := ⟨.refl s, fun _ => rfl⟩

theorem Unchanged.trans {s₁ s₂ s₃ : InTransaction} (h : Unchanged s₁ s₂) (h' : Unchanged s₂ s₃) :
    Unchanged s₁ s₃ := ⟨h.1.trans h'.1, fun hclean => by
  have heq := h.2 hclean
  rw [h'.2 (by rw [heq]; exact hclean), heq]⟩

/-- What a read that fails leaves of the transaction. -/
def TxLeftBy (s : InTransaction) (e : Fault) (s' : InTransaction) : Prop :=
  if e.isPanic then Abandoned s s' else Unchanged s s'

theorem TxLeftBy.of_unchanged {s s' : InTransaction} {e : Fault} (h : Unchanged s s') :
    TxLeftBy s e s' := by
  unfold TxLeftBy
  split
  · exact h.1.abandoned
  · exact h

theorem TxLeftBy.trans {s₁ s₂ s₃ : InTransaction} {e : Fault} (h : Unchanged s₁ s₂)
    (h' : TxLeftBy s₂ e s₃) : TxLeftBy s₁ e s₃ := by
  unfold TxLeftBy at h' ⊢
  split at h'
  · rw [if_pos ‹_›]
    exact h.1.abandoned.trans h'
  · rw [if_neg ‹_›]
    exact h.trans h'

/-- A program that leaves the transaction as it finds it, unless it panics under the guard. -/
abbrev LeavesTx {α : Type} (x : StateResult InTransaction α) : Prop :=
  WithinOr Unchanged TxLeftBy x

namespace LeavesTx

variable {α β : Type}

theorem leavesDb {x : StateResult InTransaction α} (h : LeavesTx x) : LeavesDb x := by
  intro s
  refine (h s).mono (fun _ _ hsame => hsame.1) fun e _ hleft => ?_
  unfold TxLeftBy at hleft
  unfold LeftBy
  split at hleft
  · rwa [if_pos ‹_›]
  · rw [if_neg ‹_›]
    exact hleft.1

theorem pure (a : α) : LeavesTx (pure a) := within_pure Unchanged.refl a

theorem throw (e : Fault) : LeavesTx (throw e : StateResult InTransaction α) :=
  withinOr_throw (fun s _ => .of_unchanged (.refl s)) e

theorem get : LeavesTx (get : StateResult InTransaction InTransaction) :=
  within_get Unchanged.refl

theorem bind {x : StateResult InTransaction α} {f : α → StateResult InTransaction β}
    (hx : LeavesTx x) (hf : ∀ a, LeavesTx (f a)) : LeavesTx (x >>= f) :=
  withinOr_bind Unchanged.trans TxLeftBy.trans hx hf

theorem lift (x : Result α) : LeavesTx (liftM x : StateResult InTransaction α) := by
  intro s
  cases x with
  | ok a => exact Unchanged.refl s
  | error e => exact TxLeftBy.of_unchanged (.refl s)

/-- Under the guard. -/
theorem withGuard (f : WriteGuard → Result α) : LeavesTx (InTransaction.withGuard (readOnly f)) := by
  intro s
  rw [wp, InTransaction.withGuard, readOnly]
  cases f s.guard with
  | ok a => exact ⟨.inr rfl, InTransaction.leave_guard⟩
  | error e =>
      dsimp only
      unfold TxLeftBy
      split
      · exact ⟨s.guard.writeState, rfl⟩
      · exact ⟨.inr rfl, InTransaction.leave_guard⟩

theorem tableState (table : String) : LeavesTx (InTransaction.tableState table) := by
  refine get.bind fun s => ?_
  cases s.db.tables.lookup table with
  | some state => exact pure _
  | none => exact throw _

section

variable [Crc32Fast]

theorem scanAll (table : String) (state : TableMeta) :
    LeavesTx (InTransaction.scanAll table state) :=
  get.bind fun _ => withGuard _

theorem get? (table : String) (id : UInt64) : LeavesTx (InTransaction.get? table id) := by
  refine (tableState table).bind fun state => get.bind fun s => ?_
  refine (withGuard _).bind fun found => ?_
  cases found with
  | none => exact pure _
  | some bytes => exact (lift _).bind fun _ => pure _

theorem find (table : String) (opts : FindOptions) : LeavesTx (InTransaction.find table opts) :=
  (tableState table).bind fun _ => (scanAll _ _).bind fun _ => (lift _).bind fun _ =>
    (lift _).bind fun _ => pure _

theorem countWith (table : String) (filters : List Filter) (orGroups : List (List Filter)) :
    LeavesTx (InTransaction.countWith table filters orGroups) :=
  (tableState table).bind fun _ => get.bind fun _ => WithinOr.ite (pure _)
    ((scanAll _ _).bind fun _ => (lift _).bind fun _ => pure _)

theorem scanBatch (table : String) (filters : List Filter) (orGroups : List (List Filter))
    (order : ScanOrder) (after : Option ScanKey) (limit : UInt32) :
    LeavesTx (InTransaction.scanBatch table filters orGroups order after limit) := by
  unfold InTransaction.scanBatch
  refine WithinOr.ite (pure _) ((tableState table).bind fun state => ?_)
  cases order.kind with
  | primaryKey =>
      exact (scanAll _ _).bind fun _ => (lift _).bind fun _ => (lift _).bind fun _ => pure _
  | index name =>
      dsimp only
      cases state.findIndex name with
      | none => exact throw _
      | some idx =>
          exact (lift _).bind fun _ => (scanAll _ _).bind fun _ => (lift _).bind fun _ => lift _

theorem matchingIds (table : String) (state : TableMeta) (filters : List Filter) :
    LeavesTx (InTransaction.matchingIds table state filters) :=
  (scanAll _ _).bind fun _ => (lift _).bind fun _ => pure _

end

end LeavesTx

namespace LeavesDb

variable {α β : Type}

theorem pure (a : α) : LeavesDb (pure a) := within_pure Untouched.refl a

theorem throw (e : Fault) : LeavesDb (throw e : StateResult InTransaction α) :=
  withinOr_throw (fun s _ => .of_untouched (.refl s)) e

theorem get : LeavesDb (get : StateResult InTransaction InTransaction) :=
  within_get Untouched.refl

theorem bind {x : StateResult InTransaction α} {f : α → StateResult InTransaction β}
    (hx : LeavesDb x) (hf : ∀ a, LeavesDb (f a)) : LeavesDb (x >>= f) :=
  withinOr_bind Untouched.trans LeftBy.trans hx hf

theorem lift (x : Result α) : LeavesDb (liftM x : StateResult InTransaction α) := by
  intro s
  cases x with
  | ok a => exact Untouched.refl s
  | error e => exact LeftBy.of_untouched (.refl s)

/-- A change of the transaction alone. -/
theorem modifyTx (f : InTransaction → InTransaction) (hf : ∀ s, (f s).db = s.db) :
    LeavesDb (modify f : StateResult InTransaction PUnit) := fun s => .inl (hf s)

theorem forM {γ : Type} {f : γ → StateResult InTransaction PUnit} (l : List γ)
    (hf : ∀ a, LeavesDb (f a)) : LeavesDb (l.forM f) :=
  withinOr_forM (F := LeftBy) Untouched.refl Untouched.trans LeftBy.trans l hf

theorem mapM {γ : Type} {f : γ → StateResult InTransaction α} (l : List γ)
    (hf : ∀ a, LeavesDb (f a)) : LeavesDb (l.mapM f) :=
  withinOr_mapM (F := LeftBy) Untouched.refl Untouched.trans LeftBy.trans l hf

theorem filterMapM {γ : Type} {f : γ → StateResult InTransaction (Option α)} (l : List γ)
    (hf : ∀ a, LeavesDb (f a)) : LeavesDb (l.filterMapM f) :=
  withinOr_filterMapM (F := LeftBy) Untouched.refl Untouched.trans LeftBy.trans l hf

/-- Under the guard. -/
theorem withGuard {f : StateResult WriteGuard α} (hf : OverlayFrom 0 f) :
    LeavesDb (InTransaction.withGuard f) := by
  intro s
  rw [wp, InTransaction.withGuard]
  have hrun := hf s.guard (Nat.zero_le _)
  have hleave : ∀ g : WriteGuard, OverlayGrows s.guard g → Untouched s (s.leave g) := by
    intro g hg
    have hdiscard : g.discard = WriteGuard.discard s.db.file := hg.discard
    right
    unfold InTransaction.leave
    rw [hdiscard]
  cases hx : f s.guard with
  | ok a g => exact hleave g ((wp_of_ok hx).mp hrun)
  | error e g =>
      have hgrows := (wp_of_error hx).mp hrun
      dsimp only
      unfold LeftBy
      split
      · refine ⟨g.writeState, ?_⟩
        have hfile : g = { s.db.file with writeState := g.writeState } := hgrows.file
        unfold InTransaction.abandon
        rw [← hfile]
      · exact hleave g hgrows

section

variable [Crc32Fast] {w : TreeWriters}

omit [Crc32Fast] in
theorem tableState (table : String) : LeavesDb (InTransaction.tableState table) := by
  refine get.bind fun s => ?_
  cases s.db.tables.lookup table with
  | some state => exact pure _
  | none => exact throw _

omit [Crc32Fast] in
theorem changeDelta (table : String) (fresh : MetaDelta) (f : MetaDelta → MetaDelta) :
    LeavesDb (InTransaction.changeDelta table fresh f) := modifyTx _ fun _ => rfl

theorem enforceUniqueIndexesAcid (table : String) (state : TableMeta) (bytes : List UInt8) :
    LeavesDb (InTransaction.enforceUniqueIndexesAcid table state bytes) := by
  refine get.bind fun s => (forM _ fun idx => lift _).bind fun _ => ?_
  refine (filterMapM _ fun idx => (lift _).bind fun _ => pure _).bind fun seen => ?_
  exact modifyTx _ fun _ => rfl

/-! ### Writes -/

theorem insertAs (hw : OverlayFrom.Writers w) (table : String) (state : TableMeta)
    (rowid : UInt64) (data : RowData) (freshNext : UInt64) (nextRowid : Result UInt64) :
    LeavesDb (InTransaction.insertAs w table state rowid data freshNext nextRowid) := by
  refine get.bind fun s => WithinOr.ite (throw _) ?_
  refine (enforceUniqueIndexesAcid _ _ _).bind fun _ => ?_
  refine (withGuard (OverlayFrom.putRow hw _ _ _ _)).bind fun roots => (lift _).bind fun _ => ?_
  exact changeDelta _ _ _

theorem insert (hw : OverlayFrom.Writers w) (table : String) (data : RowData) :
    LeavesDb (InTransaction.insert w table data) := by
  refine (tableState table).bind fun state => (lift _).bind fun _ => get.bind fun s => ?_
  exact (insertAs hw _ _ _ _ _ _).bind fun _ => pure _

theorem insertWithId (hw : OverlayFrom.Writers w) (table : String) (rowid : UInt64)
    (data : RowData) : LeavesDb (InTransaction.insertWithId w table rowid data) :=
  (tableState table).bind fun _ => (lift _).bind fun _ => get.bind fun _ => insertAs hw _ _ _ _ _ _

theorem update (hw : OverlayFrom.Writers w) (table : String) (id : UInt64) (fields : RowData) :
    LeavesDb (InTransaction.update w table id fields) := by
  refine (tableState table).bind fun state => (lift _).bind fun _ => get.bind fun s => ?_
  refine (withGuard (OverlayFrom.mergeRow hw _ _ _ _)).bind fun merged => ?_
  exact WithinOr.ite ((changeDelta _ _ _).bind fun _ => pure _) ((pure _).bind fun _ => pure _)

theorem delete (table : String) (id : UInt64) : LeavesDb (InTransaction.delete table id) := by
  refine (tableState table).bind fun state => get.bind fun s => ?_
  refine (withGuard (OverlayFrom.removeRow _ _ _ _)).bind fun removed => ?_
  exact WithinOr.ite ((changeDelta _ _ _).bind fun _ => pure _) ((pure _).bind fun _ => pure _)

omit [Crc32Fast] in
theorem countCalls {x : UInt64 → StateResult InTransaction Bool} (hx : ∀ id, LeavesDb (x id))
    (ids : List UInt64) : LeavesDb (InTransaction.countCalls x ids) := by
  induction ids with
  | nil => exact pure _
  | cons id ids ih => exact (hx id).bind fun _ => ih.bind fun _ => pure _

/-! ### Reads -/

theorem find (table : String) (opts : FindOptions) : LeavesDb (InTransaction.find table opts) :=
  (LeavesTx.find table opts).leavesDb

theorem matchingIds (table : String) (state : TableMeta) (filters : List Filter) :
    LeavesDb (InTransaction.matchingIds table state filters) :=
  (LeavesTx.matchingIds table state filters).leavesDb

/-! ### Calls of several writes -/

theorem updateWhere (hw : OverlayFrom.Writers w) (table : String) (filters : List Filter)
    (fields : RowData) : LeavesDb (InTransaction.updateWhere w table filters fields) :=
  (tableState table).bind fun _ => (lift _).bind fun _ => (matchingIds _ _ _).bind fun _ =>
    countCalls (fun _ => update hw _ _ _) _

theorem deleteWhere (table : String) (filters : List Filter) :
    LeavesDb (InTransaction.deleteWhere table filters) :=
  (tableState table).bind fun _ => (matchingIds _ _ _).bind fun _ => countCalls (delete table) _

theorem upsert (hw : OverlayFrom.Writers w) (table : String) (key set : RowData) :
    LeavesDb (InTransaction.upsert w table key set) := by
  refine (tableState table).bind fun state => WithinOr.ite ((find _ _).bind fun existing => ?_) (throw _)
  cases existing.rows with
  | cons row rows => exact (update hw _ _ _).bind fun _ => pure _
  | nil => exact insert hw _ _

theorem upsertIncrement (hw : OverlayFrom.Writers w) (table : String) (key : RowData)
    (counter : String) (delta : Value) (set : RowData) :
    LeavesDb (InTransaction.upsertIncrement w table key counter delta set) := by
  unfold InTransaction.upsertIncrement
  extract_lets rest
  -- what follows the check of the delta
  have hrest : LeavesDb (rest ()) := by
    refine (find _ _).bind fun existing => ?_
    cases existing.rows with
    | cons row rows =>
        refine (tableState table).bind fun state => (lift _).bind fun current => ?_
        exact (lift _).bind fun newValue => (update hw _ _ _).bind fun _ => pure _
    | nil => exact insert hw _ _
  cases delta with
  | integer d => exact hrest
  | real d => exact hrest
  | _ => exact throw _

theorem row (hw : OverlayFrom.Writers w) (table : String) (call : RowCall) :
    LeavesDb (call.inTransaction w table) := by
  cases call with
  | insert data => exact (insert hw _ _).bind fun _ => pure _
  | insertWithId rowid data => exact (insertWithId hw _ _ _).bind fun _ => pure _
  | insertMany rows => exact (mapM _ (insert hw table)).bind fun _ => pure _
  | update id fields => exact (update hw _ _ _).bind fun _ => pure _
  | updateWhere filters fields => exact (updateWhere hw _ _ _).bind fun _ => pure _
  | delete id => exact (delete _ _).bind fun _ => pure _
  | deleteWhere filters => exact (deleteWhere _ _).bind fun _ => pure _

theorem perform (hw : OverlayFrom.Writers w) (call : TxCall) : LeavesDb (call.perform w) := by
  cases call with
  | row table call => exact (row hw table call).bind fun _ => pure _
  | upsert table key set => exact (upsert hw _ _ _).bind fun _ => pure _
  | upsertIncrement table key counter delta set =>
      exact (upsertIncrement hw _ _ _ _ _).bind fun _ => pure _
  | get table id => exact (LeavesTx.get? _ _).leavesDb.bind fun _ => pure _
  | find table opts => exact (find _ _).bind fun _ => pure _
  | countWith table filters orGroups =>
      exact (LeavesTx.countWith _ _ _).leavesDb.bind fun _ => pure _
  | scanBatch table filters orGroups order after limit =>
      exact (LeavesTx.scanBatch _ _ _ _ _ _).leavesDb.bind fun _ => pure _

end

end LeavesDb

end BoogyDb
