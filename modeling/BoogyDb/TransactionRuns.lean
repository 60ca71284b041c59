import BoogyDb.AcidSteps
import BoogyDb.KeySet
import Mathlib.Logic.Relation

/-!
# Runs of a transaction

A call of a transaction that returns is a sequence of single row operations (`Traces`).  A run
(`TxRun`) is made of single operations that return, and of those that are refused: they fail
in the checks before they write (`RowCall.checks`).  Every state of a run sees sound tables
(`TxRun.inv`), and its commit gives them to the database (`wlp_txCommit`).
-/

namespace BoogyDb

open Bytes Wp WriteGuard FencedTree Ownership

/-! ## Checks -/

/-- What a row operation reads of its table before it writes. -/
structure TableView where
  state : TableMeta
  nextRowid : UInt64
  maxRowSize : UInt32
  /-- The check of the unique indexes. -/
  unique : List UInt8 → Result Unit
  search : UInt64 → Result (Option (List UInt8))

/-- The checks of a row that is inserted. -/
def TableView.checkRow (v : TableView) (rowid : UInt64) (data : RowData) : Result Unit :=
  let row := encodeRow rowid (columnValues v.state data)
  if v.maxRowSize.toNat < row.length then fail (.rowTooLarge row.length) else v.unique row

/-- An operation on one row. -/
def RowCall.single : RowCall → Bool
  | .insert _ | .insertWithId _ _ | .update _ _ | .delete _ => true
  | .insertMany _ | .updateWhere _ _ | .deleteWhere _ => false

/-- The checks that an operation makes before it writes a page. -/
def RowCall.checks (v : TableView) : RowCall → Result Unit
  | .insert data => do
      Session.enforceIndexTypes v.state data
      v.checkRow v.nextRowid data
  | .insertWithId rowid data => do
      Session.enforceIndexTypes v.state data
      v.checkRow rowid data
      if (← v.search rowid).isSome then fail (.duplicateKey rowid) else pure ()
  | .insertMany rows => do
      rows.forM (Session.enforceIndexTypes v.state)
      match rows with
      | [] => pure ()
      | data :: _ => do
          let row := encodeRow v.nextRowid (columnValues v.state data)
          if v.maxRowSize.toNat < row.length then fail (.rowTooLarge row.length) else pure ()
  | .update id fields => do
      Session.enforceIndexTypes v.state fields
      match ← v.search id with
      | none => pure ()
      | some bytes => discard (decodeRow bytes)
  | .updateWhere _ fields => Session.enforceIndexTypes v.state fields
  | .delete _ => pure ()
  | .deleteWhere _ => pure ()

section

variable [Crc32Fast] {storable : UInt64 → List UInt8 → Prop} {keyed : Prop}
  {s s' : InTransaction} {Ms : String → TableModel} {tbl : String} {state : TableMeta}

/-- What a row operation of a transaction reads of its table. -/
def InTransaction.view (s : InTransaction) (tbl : String) (state : TableMeta) : TableView where
  state
  nextRowid := s.tx.currentNextRowid tbl state
  maxRowSize := s.db.maxRowSize
  unique bytes := state.indexes.forM (enforceUniqueAcid s.db s.tx tbl state bytes)
  search := BTreeWriter.search s.guard (s.tx.currentRoot tbl state)

/-! ## Refused operations -/

/-- The prefixes of refused rows may have been noted; nothing else has changed. -/
def Refused (s s' : InTransaction) : Prop := ∃ seen, s' = { s with tx.uniqueSeen := seen }

omit [Crc32Fast] in
theorem Refused.refl (s : InTransaction) : Refused s s := ⟨s.tx.uniqueSeen, rfl⟩

omit [Crc32Fast] in
theorem Refused.trans {s₁ s₂ s₃ : InTransaction} (h : Refused s₁ s₂) (h' : Refused s₂ s₃) :
    Refused s₁ s₃ := by
  obtain ⟨seen, rfl⟩ := h
  obtain ⟨seen', rfl⟩ := h'
  exact ⟨seen', rfl⟩

omit [Crc32Fast] in
theorem Refused.guard_eq (h : Refused s s') : s'.guard = s.guard := by
  obtain ⟨seen, rfl⟩ := h
  rfl

omit [Crc32Fast] in
theorem Refused.moves (h : Refused s s') : TxMoves s s' := by
  obtain ⟨seen, rfl⟩ := h
  exact .same rfl rfl

theorem Refused.inv (h : Refused s s') (hinv : TxInv storable keyed s Ms) :
    TxInv storable keyed s' Ms := by
  obtain ⟨seen, rfl⟩ := h
  exact ⟨hinv.clean, hinv.staged, hinv.deltas, hinv.ok⟩

/-- A program that fails and, unless a panic leaves pages in the overlay, leaves the
transaction as it was, up to the prefixes. -/
abbrev Fails {α : Type} (x : StateResult InTransaction α) (s : InTransaction) : Prop :=
  wp x (fun _ _ => False) (fun _ s' => s'.db.file.writeState = ⟨∅, 0⟩ → Refused s s') s

omit [Crc32Fast] in
theorem fails_lift_bind {α β : Type} {x : Result α} {f : α → StateResult InTransaction β}
    (h : ∀ a, x = .ok a → Fails (f a) s) :
    Fails ((liftM x : StateResult InTransaction α) >>= f) s := by
  cases x with
  | ok a => exact h a rfl
  | error e => exact fun _ => Refused.refl s

omit [Crc32Fast] in
theorem tableState_ok (hname : s.db.tables.lookup tbl = some state) :
    InTransaction.tableState tbl s = .ok state s := by
  have hrun : wp (InTransaction.tableState tbl) (fun st s' => st = state ∧ s' = s)
      (fun _ _ => False) s := by
    refine wp_get_bind.mpr ?_
    rw [hname]
    exact ⟨rfl, rfl⟩
  obtain ⟨st, s', hx, rfl, rfl⟩ := hrun.exists_ok
  exact hx

theorem within_enforceUniqueIndexesAcid (bytes : List UInt8) :
    Within Refused (InTransaction.enforceUniqueIndexesAcid tbl state bytes) := by
  have hlift : ∀ {α : Type} (x : Result α), Within Refused (liftM x : StateResult _ α) := by
    intro α x s
    cases x <;> exact Refused.refl s
  refine within_bind Refused.trans (within_get Refused.refl) fun s => ?_
  refine within_bind Refused.trans (within_forM Refused.refl Refused.trans _ fun idx => hlift _) fun _ => ?_
  refine within_bind Refused.trans (within_filterMapM Refused.refl Refused.trans _ fun idx =>
    within_bind Refused.trans (hlift _) fun _ => within_pure Refused.refl _) fun seen => ?_
  exact fun s => ⟨_, rfl⟩

/-- The unique indexes refuse the row. -/
theorem enforceUniqueIndexesAcid_fails {bytes : List UInt8} {e : Fault}
    (h : (s.view tbl state).unique bytes = .error e) :
    Fails (InTransaction.enforceUniqueIndexesAcid tbl state bytes) s := by
  refine (wp.fails (within_enforceUniqueIndexesAcid bytes s) fun _ s' hx => ?_).mono
    (fun _ _ => id) fun _ _ hrefused _ => hrefused
  obtain ⟨hchecks, -⟩ := wlp_enforceUniqueIndexesAcid.ok hx
  exact absurd (h.symm.trans (Except.forM_eq_ok_iff.mpr hchecks)) (by simp)

omit [Crc32Fast] in
theorem fails_bind {α β : Type} {x : StateResult InTransaction α}
    {f : α → StateResult InTransaction β} (h : Fails x s) : Fails (x >>= f) s :=
  wp_bind.mpr (h.mono (fun _ _ => False.elim) fun _ _ => id)

/-- The row is refused. -/
theorem fails_insertAs {w : TreeWriters} {rowid freshNext : UInt64} {data : RowData}
    {next : Result UInt64} {e : Fault} (h : (s.view tbl state).checkRow rowid data = .error e) :
    Fails (InTransaction.insertAs w tbl state rowid data freshNext next) s := by
  unfold InTransaction.insertAs
  refine wp_get_bind.mpr (wp_ite (fun _ _ => Refused.refl s) fun hsize => ?_)
  have hunique : (s.view tbl state).checkRow rowid data = (s.view tbl state).unique _ :=
    if_neg hsize
  rw [hunique] at h
  exact fails_bind (enforceUniqueIndexesAcid_fails h)

omit [Crc32Fast] in
/-- A program under the guard that fails before it writes. -/
theorem fails_withGuard {α : Type} {f : StateResult WriteGuard α}
    (hclean : s.db.file.writeState = ⟨∅, 0⟩)
    (h : wp f (fun _ _ => False) (fun _ g => g = s.guard) s.guard) :
    Fails (InTransaction.withGuard f) s := by
  cases hx : f s.guard with
  | ok a g => exact (h.ok hx).elim
  | error e g =>
      obtain rfl : g = s.guard := h.error hx
      have hrun : InTransaction.withGuard f s =
          .error e (if e.isPanic then s.abandon s.guard else s.leave s.guard) := by
        unfold InTransaction.withGuard
        rw [hx]
      refine (wp_of_error hrun).mpr fun hleft => ?_
      have hsame : (if e.isPanic then s.abandon s.guard else s.leave s.guard) = s := by
        split
        · rw [if_pos ‹_›] at hleft
          exact s.abandon_guard hclean hleft
        · exact InTransaction.leave_guard hclean
      rw [hsame]
      exact Refused.refl s

/-- The row id is there. -/
theorem fails_insertAs_duplicate {rowid freshNext : UInt64} {data : RowData} {next : Result UInt64}
    (hinv : TxInv storable keyed s Ms) (hname : s.db.tables.lookup tbl = some state)
    (hid : ((Ms tbl).rows rowid).isSome) :
    Fails (InTransaction.insertAs .code tbl state rowid data freshNext next) s := by
  unfold InTransaction.insertAs
  refine wp_get_bind.mpr (wp_ite (fun _ _ => Refused.refl s) fun _ => ?_)
  obtain ⟨-, P, hP, -⟩ := hinv.table hname
  obtain ⟨Q, hQ, -⟩ := hP.rowsTree
  refine wp_bind.mpr ((within_enforceUniqueIndexesAcid _ s).mono ?_ fun _ _ hrefused _ => hrefused)
  intro _ s₁ hs₁
  refine wp.mono (Q := fun _ _ => False)
    (E := fun _ s' => s'.db.file.writeState = ⟨∅, 0⟩ → Refused s₁ s') (fails_bind ?_)
    (fun _ _ => id) fun _ _ hrefused hleft => hs₁.trans (hrefused hleft)
  have hclean : s₁.db.file.writeState = ⟨∅, 0⟩ := by
    obtain ⟨seen, rfl⟩ := hs₁
    exact hinv.clean
  refine fails_withGuard hclean ?_
  unfold putRow
  rw [hs₁.guard_eq, currentRoot_eq, wp_bind]
  exact (wp_of_error (insert_duplicate hQ.holds hid _)).mpr rfl

/-- **An operation that fails in its checks leaves the transaction as it was.** -/
theorem fails_of_checks {call : RowCall} {e : Fault} (hinv : TxInv storable keyed s Ms)
    (hname : s.db.tables.lookup tbl = some state) (hsingle : call.single = true)
    (h : call.checks (s.view tbl state) = .error e) :
    Fails (call.inTransaction .code tbl) s := by
  -- only single calls are made in a transaction; the others are refuted at the end
  cases call with
  | insert data =>
      refine fails_bind ?_
      unfold InTransaction.insert
      rw [Fails, wp_bind, wp_of_ok (tableState_ok hname)]
      refine fails_lift_bind fun _ htypes => wp_get_bind.mpr ?_
      change (Session.enforceIndexTypes state data >>= fun _ => _) = _ at h
      rw [htypes] at h
      exact fails_bind (fails_insertAs h)
  | insertWithId rowid data =>
      refine fails_bind ?_
      unfold InTransaction.insertWithId
      rw [Fails, wp_bind, wp_of_ok (tableState_ok hname)]
      refine fails_lift_bind fun _ htypes => wp_get_bind.mpr ?_
      change (Session.enforceIndexTypes state data >>= fun _ => _) = _ at h
      rw [htypes] at h
      change ((s.view tbl state).checkRow rowid data >>= fun _ => _) = _ at h
      cases hrow : (s.view tbl state).checkRow rowid data with
      | error e => exact fails_insertAs hrow
      | ok _ =>
          rw [hrow] at h
          obtain ⟨-, P, hP, -⟩ := hinv.table hname
          -- the checks look at the guard of the view, which has the pages of the transaction
          have hsearch : (s.view tbl state).search rowid = .ok ((Ms tbl).rows rowid) := by
            show BTreeWriter.search s.guard (s.tx.currentRoot tbl state) rowid = _
            rw [currentRoot_eq]
            exact search_guard hP rowid
          change ((s.view tbl state).search rowid >>= fun found =>
            if found.isSome then fail (.duplicateKey rowid) else .ok ()) = _ at h
          rw [hsearch, ok_bind] at h
          refine fails_insertAs_duplicate hinv hname ?_
          by_contra hnone
          rw [if_neg hnone] at h
          cases h
  | update id fields =>
      refine fails_bind ?_
      unfold InTransaction.update
      rw [Fails, wp_bind, wp_of_ok (tableState_ok hname)]
      refine fails_lift_bind fun _ htypes => wp_get_bind.mpr ?_
      change (Session.enforceIndexTypes state fields >>= fun _ => _) = _ at h
      rw [htypes] at h
      obtain ⟨-, P, hP, -⟩ := hinv.table hname
      have hsearch : BTreeWriter.search s.guard (s.tx.currentRoot tbl state) id =
          .ok ((Ms tbl).rows id) := by
        rw [currentRoot_eq]
        exact search_guard hP id
      change ((BTreeWriter.search s.guard (s.tx.currentRoot tbl state) id) >>= _) = _ at h
      rw [hsearch, ok_bind] at h
      refine fails_bind (fails_withGuard hinv.clean ?_)
      unfold mergeRow
      rw [wp_bind, wp_readOnly, hsearch]
      cases hid : (Ms tbl).rows id with
      | none =>
          rw [hid] at h
          cases h
      | some old =>
          rw [hid] at h
          cases hold : decodeRow old with
          | ok existing =>
              dsimp only at h
              rw [hold] at h
              cases h
          | error e =>
              dsimp only
              rw [wp_bind]
              show wp (liftM (decodeRow old)) _ _ _
              rw [hold]
              rfl
  | delete id => cases h
  | _ => cases hsingle

end

/-! ## Calls as sequences of single operations -/

section

variable [Crc32Fast] {w : TreeWriters} {s s' : InTransaction}

/-- A single row operation returns. -/
def Returns (w : TreeWriters) (s s' : InTransaction) : Prop :=
  ∃ tbl call r, RowCall.single call = true ∧ call.inTransaction w tbl s = .ok r s'

/-- When it returns, it is a run of single row operations that return. -/
def Traces {α : Type} (w : TreeWriters) (x : StateResult InTransaction α) : Prop :=
  ∀ s, s.db.file.writeState = ⟨∅, 0⟩ →
    wlp x (fun _ s' => s'.db = s.db ∧ Relation.ReflTransGen (Returns w) s s') s

namespace Traces

variable {α β γ : Type}

theorem of_leavesTx {x : StateResult InTransaction α} (h : LeavesTx x) : Traces w x := by
  intro s hclean
  refine (wlp_of_wp (h s)).post fun _ s' hsame => ?_
  rw [hsame.2 hclean]
  exact ⟨rfl, .refl⟩

theorem bind {x : StateResult InTransaction α} {f : α → StateResult InTransaction β}
    (hx : Traces w x) (hf : ∀ a, Traces w (f a)) : Traces w (x >>= f) := by
  intro s hclean
  refine wp.bind (hx s hclean) ?_
  rintro a s₁ ⟨hdb, hrun⟩
  refine (hf a s₁ (hdb ▸ hclean)).post ?_
  rintro b s₂ ⟨hdb', hrun'⟩
  exact ⟨hdb'.trans hdb, hrun.trans hrun'⟩

theorem pure (a : α) : Traces w (pure a) := of_leavesTx (LeavesTx.pure a)

theorem lift (x : Result α) : Traces w (liftM x : StateResult InTransaction α) :=
  of_leavesTx (LeavesTx.lift x)

theorem ite {c : Prop} [Decidable c] {x y : StateResult InTransaction α} (hx : Traces w x)
    (hy : Traces w y) : Traces w (if c then x else y) := fun s hclean =>
  wlp_ite (fun _ => hx s hclean) fun _ => hy s hclean

theorem mapM {f : γ → StateResult InTransaction α} (l : List γ) (hf : ∀ a, Traces w (f a)) :
    Traces w (l.mapM f) := by
  induction l with
  | nil => exact pure _
  | cons a l ih =>
      rw [List.mapM_cons]
      exact (hf a).bind fun _ => ih.bind fun _ => pure _

theorem countCalls {x : UInt64 → StateResult InTransaction Bool} (hx : ∀ id, Traces w (x id))
    (ids : List UInt64) : Traces w (InTransaction.countCalls x ids) := by
  induction ids with
  | nil => exact pure _
  | cons id ids ih => exact (hx id).bind fun _ => ih.bind fun _ => pure _

variable {tbl : String}

/-- A single operation, whatever is made of its result. -/
theorem single {x : StateResult InTransaction α} {reply : α → Reply} (call : RowCall)
    (hsingle : call.single = true) (hcall : call.inTransaction w tbl = replied reply x)
    (hdb : LeavesDb x) : Traces w x := by
  intro s hclean
  rw [wlp_iff]
  intro a s' hx
  refine ⟨(hdb.ok hx).db_eq hclean, .single ⟨tbl, call, reply a, hsingle, ?_⟩⟩
  rw [hcall]
  exact run_bind_ok hx

theorem delete (id : UInt64) : Traces w (InTransaction.delete tbl id) :=
  single (.delete id) rfl rfl (LeavesDb.delete _ _)

section

variable (hw : OverlayFrom.Writers w)
include hw

theorem insert (data : RowData) : Traces w (InTransaction.insert w tbl data) :=
  single (.insert data) rfl rfl (LeavesDb.insert hw _ _)

theorem insertWithId (rowid : UInt64) (data : RowData) :
    Traces w (InTransaction.insertWithId w tbl rowid data) :=
  single (.insertWithId rowid data) rfl rfl (LeavesDb.insertWithId hw _ _ _)

theorem update (id : UInt64) (fields : RowData) : Traces w (InTransaction.update w tbl id fields) :=
  single (.update id fields) rfl rfl (LeavesDb.update hw _ _ _)

/-! ### Calls of several operations -/

theorem row (call : RowCall) : Traces w (call.inTransaction w tbl) := by
  cases call with
  | insert data => exact (insert hw _).bind fun _ => pure _
  | insertWithId rowid data => exact (insertWithId hw _ _).bind fun _ => pure _
  | insertMany rows => exact (mapM rows (insert hw)).bind fun _ => pure _
  | update id fields => exact (update hw _ _).bind fun _ => pure _
  | updateWhere filters fields =>
      refine bind ?_ fun _ => pure _
      refine (of_leavesTx (.tableState tbl)).bind fun state => (lift _).bind fun _ => ?_
      refine (of_leavesTx (.matchingIds _ _ _)).bind fun ids => ?_
      exact countCalls (fun id => update hw id fields) ids
  | delete id => exact (delete _).bind fun _ => pure _
  | deleteWhere filters =>
      refine bind ?_ fun _ => pure _
      refine (of_leavesTx (.tableState tbl)).bind fun state => ?_
      exact (of_leavesTx (.matchingIds _ _ _)).bind fun ids => countCalls delete ids

theorem upsert (key set : RowData) : Traces w (InTransaction.upsert w tbl key set) := by
  refine (of_leavesTx (.tableState tbl)).bind fun state => ?_
  refine ite ((of_leavesTx (.find _ _)).bind fun existing => ?_) (of_leavesTx (.throw _))
  cases existing.rows with
  | cons row rows => exact (update hw _ _).bind fun _ => pure _
  | nil => exact insert hw _

theorem upsertIncrement (key : RowData) (counter : String) (delta : Value) (set : RowData) :
    Traces w (InTransaction.upsertIncrement w tbl key counter delta set) := by
  unfold InTransaction.upsertIncrement
  extract_lets rest
  have hrest : Traces w (rest ()) := by
    refine (of_leavesTx (.find _ _)).bind fun existing => ?_
    cases existing.rows with
    | cons row rows =>
        refine (of_leavesTx (.tableState tbl)).bind fun state => (lift _).bind fun current => ?_
        exact (lift _).bind fun newValue => (update hw _ _).bind fun _ => pure _
    | nil => exact insert hw _
  cases delta with
  | integer d => exact hrest
  | real d => exact hrest
  | _ => exact of_leavesTx (.throw _)

end

end Traces

end

/-! ## Runs -/

section

variable [Crc32Fast] {storable : UInt64 → List UInt8 → Prop} {keyed : Prop}
  {s s' : InTransaction} {Ms : String → TableModel}

/-- A single row operation that returns, with insertions that find room, of rows that meet
`storable` and of keys that branches tell apart; or one that fails in its checks.  A panic that
leaves pages in the overlay has poisoned the lock, and no step follows it. -/
inductive TxStep (storable : UInt64 → List UInt8 → Prop) (s : InTransaction) :
    InTransaction → Prop
  | returned {s₁ : InTransaction} (h : Returns (.watched storable) s s₁) : TxStep storable s s₁
  | refused {tbl : String} {state : TableMeta} {call : RowCall} {e : Fault}
      (hsingle : call.single = true)
      (hname : s.db.tables.lookup tbl = some state)
      (hchecks : call.checks (s.view tbl state) = .error e)
      (hleft : (stateAfter (call.inTransaction .code tbl) s).db.file.writeState = ⟨∅, 0⟩) :
      TxStep storable s (stateAfter (call.inTransaction .code tbl) s)

/-- A run of a transaction. -/
abbrev TxRun (storable : UInt64 → List UInt8 → Prop) : InTransaction → InTransaction → Prop :=
  Relation.ReflTransGen (TxStep storable)

/-- An operation that returns keeps the tables sound. -/
theorem Returns.inv (hinv : TxInv storable keyed s Ms)
    (hstore : ∀ id row, storable id row → Storable id row)
    (h : Returns (.watched storable) s s') :
    TxMoves s s' ∧ ∃ Ms', TxInv storable keyed s' Ms' := by
  obtain ⟨tbl, call, r, hsingle, hrun⟩ := h
  cases call with
  | insert data =>
      obtain ⟨_, -, state, Ms', -, hinserted⟩ := (wlp_replied (wlp_txInsert hinv hstore)).ok hrun
      exact ⟨hinserted.moves, Ms', hinserted.inv⟩
  | insertWithId rowid data =>
      obtain ⟨_, -, state, Ms', hinserted⟩ := (wlp_replied (wlp_txInsertWithId hinv hstore)).ok hrun
      exact ⟨hinserted.moves, Ms', hinserted.inv⟩
  | update id fields =>
      obtain ⟨_, -, state, -, -, hmoves, -, hcase⟩ :=
        (wlp_replied (wlp_txUpdate hinv hstore)).ok hrun
      cases hid : (Ms tbl).rows id with
      | none =>
          rw [hid] at hcase
          exact ⟨hmoves, Ms, hcase⟩
      | some old =>
          rw [hid] at hcase
          obtain ⟨existing, row, M', -, -, -, -, hinv'⟩ := hcase
          exact ⟨hmoves, _, hinv'⟩
  | delete id =>
      obtain ⟨_, -, state, -, -, hmoves, -, hcase⟩ := (wlp_replied (wlp_txDelete hinv)).ok hrun
      cases hid : (Ms tbl).rows id with
      | none =>
          rw [hid] at hcase
          exact ⟨hmoves, Ms, hcase⟩
      | some old =>
          rw [hid] at hcase
          obtain ⟨M', -, hinv'⟩ := hcase
          exact ⟨hmoves, _, hinv'⟩
  | _ => cases hsingle

theorem TxStep.inv (hinv : TxInv storable keyed s Ms)
    (hstore : ∀ id row, storable id row → Storable id row) (h : TxStep storable s s') :
    TxMoves s s' ∧ ∃ Ms', TxInv storable keyed s' Ms' := by
  cases h with
  | returned h => exact h.inv hinv hstore
  | refused hsingle hname hchecks hleft =>
      have hrun := fails_of_checks hinv hname hsingle hchecks
      rw [Fails, wp] at hrun
      unfold stateAfter at hleft ⊢
      split at hrun
      · exact hrun.elim
      · rename_i hx
        rw [hx] at hleft ⊢
        exact ⟨(hrun hleft).moves, Ms, (hrun hleft).inv hinv⟩

/-- **Every state of a run sees sound tables.** -/
theorem TxRun.inv (hinv : TxInv storable keyed s Ms)
    (hstore : ∀ id row, storable id row → Storable id row) (h : TxRun storable s s') :
    TxMoves s s' ∧ ∃ Ms', TxInv storable keyed s' Ms' := by
  induction h with
  | refl => exact ⟨.refl s, Ms, hinv⟩
  | tail _ hstep ih =>
      obtain ⟨hmoves, Ms₁, hinv₁⟩ := ih
      obtain ⟨hmoves', hinv'⟩ := hstep.inv hinv₁ hstore
      exact ⟨hmoves.trans hmoves', hinv'⟩

/-- **A commit** gives the database what the transaction sees. -/
theorem wlp_txCommit (h : TxInv storable keyed s Ms) :
    wlp InTransaction.commit (fun _ s' => DbInv storable keyed s'.db Ms ∧
      s'.db = { s.db with file := s'.db.file, wal := s'.db.wal, tables := s.seenTables }) s := by
  rw [wlp_iff]
  intro _ s' hrun
  obtain ⟨started, hok⟩ := h.ok
  unfold InTransaction.commit at hrun
  split at hrun
  · rename_i hempty
    cases hrun
    rw [Bool.and_eq_true, List.isEmpty_iff, List.isEmpty_iff] at hempty
    obtain ⟨hdirty, hdeltas⟩ := hempty
    have hdirty' : s.tx.privateDirty = ∅ := AList.ext hdirty
    have htables : s.seenTables = s.db.tables := by
      unfold InTransaction.seenTables
      rw [hdeltas]
      rfl
    have hguard : s.guard = s.db.file := by
      have hempty : (∅ : AList fun _ : ℕ => Page) ∪ ∅ = ∅ := AList.empty_union
      show { s.db.file with
        writeState := ⟨s.db.file.writeState.dirty ∪ s.tx.privateDirty, s.tx.newPageCount⟩ } = _
      rw [h.clean, hdirty', h.staged hdirty', hempty, ← h.clean]
    rw [htables, hguard] at hok
    exact ⟨⟨h.clean, started, hok⟩, by rw [htables]⟩
  · dsimp only at hrun
    split at hrun
    · rename_i file wal hcommit
      cases hrun
      obtain ⟨afterImages, hfile⟩ := commitFile_ok hcommit
      exact ⟨⟨(commit_eq hfile).2.1, started, hok.commit hfile⟩, rfl⟩
    · cases hrun

end

end BoogyDb
