import BoogyDb.CacheIndifference
import BoogyDb.VectorDb

/-!
# A transaction that is dropped leaves nothing behind

An open transaction makes calls, which return or fail with an error, and pages are read, by its
calls and by others, which fills the cache (`OpenStep`).  When it is dropped, the database is
the one before it up to what is cached: the tables, the page count, the log, the overlay and
every cached page are as they were, and what the cache has more are pages of the disk
(`RolledBack`).

No later operation can tell (`Unnoticed`), and that is also why it makes no difference where
within a call its reads fill the cache.
-/

namespace BoogyDb

open Wp WriteGuard

section

variable [Crc32Fast]

/-! ## What reads leave in the cache -/

/-- The cache has the pages it had, and others from the disk; nothing else has changed. -/
structure Filled (file file' : PageFile) : Prop where
  rest : file' = { file with pages := file'.pages }
  kept : ∀ (pageNo : ℕ) (page : Page), file.pages[pageNo]?.join = some page →
    file'.pages[pageNo]?.join = some page
  read : ∀ (pageNo : ℕ) (page : Page), file'.pages[pageNo]?.join = some page →
    file.pages[pageNo]?.join = some page ∨
      pageNo < file.numPages ∧ PageFile.readPageFromDisk file.disk pageNo = .ok page
  alike : Alike file file'

theorem Filled.refl (file : PageFile) : Filled file file :=
  ⟨rfl, fun _ _ => id, fun _ _ => .inl, .refl file⟩

theorem Filled.trans {file₁ file₂ file₃ : PageFile} (h : Filled file₁ file₂)
    (h' : Filled file₂ file₃) : Filled file₁ file₃ where
  rest := by rw [h'.rest, h.rest]
  kept pageNo page hpage := h'.kept pageNo page (h.kept pageNo page hpage)
  read pageNo page hpage := by
    rcases h'.read pageNo page hpage with hcached | hdisk
    · exact h.read pageNo page hcached
    · rw [h.alike.numPages, h.alike.disk] at hdisk
      exact .inr hdisk
  alike := h.alike.trans h'.alike

theorem filled_readPageCaching (file : PageFile) (pageNo : ℕ) :
    Filled file (stateAfter (PageFile.readPageCaching pageNo) file) := by
  have halike := alike_readPageCaching file pageNo
  unfold stateAfter PageFile.readPageCaching at halike ⊢
  by_cases hrange : file.numPages ≤ pageNo
  · rw [if_pos hrange]
    exact .refl file
  rw [if_neg hrange] at halike ⊢
  cases hslot : file.pages[pageNo]?.join with
  | some page => exact .refl file
  | none =>
      rw [hslot] at halike
      cases hdisk : PageFile.readPageFromDisk file.disk pageNo with
      | error e => exact .refl file
      | ok page =>
          rw [hdisk] at halike
          refine ⟨rfl, fun q kept hkept => ?_, fun q cached hcached => ?_, halike⟩
          · dsimp only
            rw [PageFile.cachePage_getElem?, if_neg, hkept]
            rintro rfl
            rw [hslot] at hkept
            cases hkept
          · dsimp only at hcached
            rw [PageFile.cachePage_getElem?] at hcached
            by_cases hq : q = pageNo
            · rw [if_pos hq] at hcached
              rw [hq, ← Option.some.inj hcached]
              exact .inr ⟨Nat.lt_of_not_le hrange, hdisk⟩
            · rw [if_neg hq] at hcached
              exact .inl hcached

theorem filled_readOthers (pageNos : List ℕ) (file : PageFile) :
    Filled file (readOthers pageNos file) := by
  induction pageNos generalizing file with
  | nil => exact .refl file
  | cons pageNo pageNos ih => exact (filled_readPageCaching file pageNo).trans (ih _)

/-! ## Open transactions -/

/-- A step of an open transaction. -/
inductive OpenStep (s : InTransaction) : InTransaction → Prop
  /-- Pages are read, by the transaction or by others. -/
  | reads (pageNos : List ℕ) : OpenStep s { s with db.file := readOthers pageNos s.db.file }
  | returned {call : TxCall} {reply : TxReply} {s' : InTransaction}
      (h : call.perform .code s = .ok reply s') : OpenStep s s'
  | failed {call : TxCall} {e : BoogyError} {s' : InTransaction}
      (h : call.perform .code s = .error (.error e) s') : OpenStep s s'

/-- A run of an open transaction. -/
abbrev OpenRun : InTransaction → InTransaction → Prop := Relation.ReflTransGen OpenStep

/-- `db'` is `db` with pages of the disk cached. -/
structure RolledBack (db db' : Db) : Prop where
  rest : db' = { db with file := db'.file }
  file : Filled db.file db'.file

/-- **What a step leaves of the database.** -/
theorem OpenStep.rolledBack {s s' : InTransaction} (h : OpenStep s s')
    (hclean : s.db.file.writeState = ⟨∅, 0⟩) : RolledBack s.db s'.db := by
  have hsame : ∀ {s' : InTransaction}, s'.db = s.db → RolledBack s.db s'.db := by
    intro s' hdb
    rw [hdb]
    exact ⟨rfl, .refl _⟩
  cases h with
  | reads pageNos => exact ⟨rfl, filled_readOthers pageNos _⟩
  | @returned call _ _ h => exact hsame (((LeavesDb.perform OverlayFrom.code call).ok h).db_eq hclean)
  | @failed call e s' h =>
      have hleft : Untouched s s' := (LeavesDb.perform OverlayFrom.code call).error h
      exact hsame (hleft.db_eq hclean)

theorem OpenRun.rolledBack {s s' : InTransaction} (h : OpenRun s s')
    (hclean : s.db.file.writeState = ⟨∅, 0⟩) : RolledBack s.db s'.db := by
  induction h with
  | refl => exact ⟨rfl, .refl _⟩
  | tail _ hstep ih =>
      have hstep' := hstep.rolledBack (ih.file.alike.writeState.trans hclean)
      refine ⟨?_, ih.file.trans hstep'.file⟩
      rw [hstep'.rest, ih.rest]

/-! ## What comes later -/

/-- What is done with a database. -/
inductive Operation
  | call (call : Call)
  /-- A transaction, which is committed or dropped. -/
  | transaction (calls : List TxCall) (commits : Bool)
  | get (table : String) (id : UInt64)
  | find (table : String) (opts : FindOptions)
  | countWith (table : String) (filters : List Filter) (orGroups : List (List Filter))
  | scanBatch (table : String) (filters : List Filter) (orGroups : List (List Filter))
      (order : ScanOrder) (after : Option ScanKey) (limit : UInt32)
  /-- Pages are read, which fills the cache. -/
  | reads (pageNos : List ℕ)

/-- What an operation answers. -/
inductive OperationReply
  | called (result : Result Reply)
  | transaction (results : List (Result TxReply)) (committed : Result Unit)
  | row (result : Result (Option Row))
  | found (result : Result FindResult)
  | counted (result : Result ℕ)
  | batch (result : Result ScanBatch)
  | pages (results : List (Result Page))

/-- Make the calls one after the other, also after one has failed. -/
def performCalls : List TxCall → InTransaction → List (Result TxReply) × InTransaction
  | [], s => ([], s)
  | call :: calls, s =>
    let (results, s') := performCalls calls (stateAfter (call.perform .code) s)
    (resultOf (call.perform .code) s :: results, s')

def Operation.perform (db : Db) : Operation → OperationReply × Db
  | .call c => (.called (resultOf (c.perform .code) db), stateAfter (c.perform .code) db)
  | .transaction calls commits =>
    let (results, s) := performCalls calls db.beginAcid
    if commits then
      (.transaction results (resultOf InTransaction.commit s), (stateAfter InTransaction.commit s).db)
    else (.transaction results (.ok ()), s.rollback)
  | .get table id => (.row (db.get? table id), db)
  | .find table opts => (.found (db.find table opts), db)
  | .countWith table filters orGroups => (.counted (db.countWith table filters orGroups), db)
  | .scanBatch table filters orGroups order after limit =>
      (.batch (do
        let state ← db.tableState table
        BoogyDb.scanBatch db.file table state filters orGroups order after limit), db)
  | .reads pageNos =>
      (.pages (pageNos.map db.file.readPage), { db with file := readOthers pageNos db.file })

/-- The answers of operations that are done one after the other. -/
def Db.answers : List Operation → Db → List OperationReply
  | [], _ => []
  | op :: ops, db => (op.perform db).1 :: Db.answers ops (op.perform db).2

/-- Calls that return or fail with an error are a run. -/
theorem openRun_performCalls (calls : List TxCall) {s : InTransaction}
    (h : (performCalls calls s).1.all (fun result => (panicOf result).isNone) = true) :
    OpenRun s (performCalls calls s).2 := by
  induction calls generalizing s with
  | nil => exact .refl
  | cons call calls ih =>
      obtain ⟨hcall, hrest⟩ := Bool.and_eq_true_iff.mp h
      refine .head ?_ (ih hrest)
      unfold resultOf at hcall
      unfold stateAfter
      cases hx : call.perform .code s with
      | ok reply s' => exact .returned hx
      | error fault s' =>
          rw [hx] at hcall
          cases fault with
          | error e => exact .failed hx
          | _ => cases hcall

theorem performCalls_alike (calls : List TxCall) {s s' : InTransaction} (h : AlikeTx s s') :
    (performCalls calls s').1 = (performCalls calls s).1 ∧
      AlikeTx (performCalls calls s).2 (performCalls calls s').2 := by
  induction calls generalizing s s' with
  | nil => exact ⟨rfl, h⟩
  | cons call calls ih =>
      obtain ⟨hresult, hafter⟩ := endsAlike_iff.mp (Indifferent.perform call s s' h)
      obtain ⟨hresults, hend⟩ := ih hafter
      unfold performCalls
      dsimp only
      rw [hresult, hresults]
      exact ⟨rfl, hend⟩

/-- **An operation answers the same** on databases that differ in their caches alone. -/
theorem Operation.perform_alike (op : Operation) {db db' : Db} (h : AlikeDb db db') :
    (op.perform db').1 = (op.perform db).1 ∧ AlikeDb (op.perform db).2 (op.perform db').2 := by
  cases op with
  | call call =>
      obtain ⟨hresult, hafter⟩ := endsAlike_iff.mp (AlikeDb.perform call db db' h)
      exact ⟨congrArg OperationReply.called hresult, hafter⟩
  | transaction calls commits =>
      obtain ⟨file, halike, rfl⟩ := h
      have hbegin : AlikeTx db.beginAcid (Db.beginAcid { db with file }) :=
        ⟨file, halike, rfl⟩
      obtain ⟨hresults, hend⟩ := performCalls_alike calls hbegin
      unfold Operation.perform
      dsimp only
      rw [hresults]
      split
      · obtain ⟨hcommit, file', halike', hdb⟩ := endsAlike_iff.mp (Indifferent.commit _ _ hend)
        rw [hcommit, hdb]
        exact ⟨rfl, file', halike', rfl⟩
      · obtain ⟨file', halike', hs⟩ := hend
        rw [hs]
        exact ⟨rfl, file', halike', rfl⟩
  | get table id =>
      refine ⟨?_, h⟩
      unfold Operation.perform
      rw [h.get?_eq]
  | find table opts =>
      refine ⟨?_, h⟩
      obtain ⟨file, halike, rfl⟩ := h
      unfold Operation.perform Db.find Db.tableState
      dsimp only
      rw [halike.find]
  | countWith table filters orGroups =>
      refine ⟨?_, h⟩
      obtain ⟨file, halike, rfl⟩ := h
      unfold Operation.perform Db.countWith Db.tableState
      dsimp only
      rw [halike.countWith]
  | scanBatch table filters orGroups order after limit =>
      refine ⟨?_, h⟩
      obtain ⟨file, halike, rfl⟩ := h
      unfold Operation.perform Db.tableState
      dsimp only
      rw [halike.scanBatch]
  | reads pageNos =>
      obtain ⟨file, halike, rfl⟩ := h
      refine ⟨congrArg (fun read => OperationReply.pages (pageNos.map read)) halike.readPage, ?_⟩
      exact ⟨readOthers pageNos file, (alike_readOthers pageNos db.file).symm.trans
        (halike.trans (alike_readOthers pageNos file)), rfl⟩

theorem answers_alike (ops : List Operation) {db db' : Db} (h : AlikeDb db db') :
    Db.answers ops db' = Db.answers ops db := by
  induction ops generalizing db db' with
  | nil => rfl
  | cons op ops ih =>
      obtain ⟨hreply, hafter⟩ := op.perform_alike h
      unfold Db.answers
      rw [hreply, ih hafter]

/-- Whatever is done later answers the same: the operations of the database, one after the other,
and every closure over a write guard, whose commit publishes the same. -/
def Unnoticed (db db' : Db) : Prop :=
  (∀ ops, Db.answers ops db' = Db.answers ops db) ∧
    ∀ {α : Type} (p : GuardProgram α), (p.run db'.file).1 = (p.run db.file).1 ∧
      SameCommit (p.run db.file).2 (p.run db'.file).2

theorem RolledBack.unnoticed {db db' : Db} (h : RolledBack db db') : Unnoticed db db' := by
  refine ⟨fun ops => answers_alike ops ⟨db'.file, h.file.alike, h.rest⟩, fun p => ?_⟩
  obtain ⟨houtcome, hafter⟩ := h.file.alike.run p
  exact ⟨houtcome, hafter.commit⟩

/-- **A transaction that is dropped leaves the database as it was**, up to pages of the disk that
were read into the cache: the tables, the page count, the log, the overlay and the cached pages
are the same, and no later operation can tell that it existed. -/
theorem rollback_unnoticed {db : Db} (hclean : db.file.writeState = ⟨∅, 0⟩) {s : InTransaction}
    (h : OpenRun db.beginAcid s) : RolledBack db s.rollback ∧ Unnoticed db s.rollback := by
  have hback : RolledBack db s.rollback := h.rolledBack hclean
  exact ⟨hback, hback.unnoticed⟩

end

/-- A table with a row.  The page of the registry is on the disk alone. -/
def storedFlag : Db := letI := crc32Ieee
  let db := newDb.after [createFlags, insertFlag]
  { db with file := { db.file with disk := db.file.syncAll.disk, pages := db.file.pages.set 0 none } }

/-- A read, an insertion, and one that fails under the guard because its id is taken. -/
def flagCalls : List TxCall :=
  [.get "t" 1, .row "t" (.insert [("flag", .boolean false)]),
    .row "t" (.insertWithId 1 [("flag", .boolean false)])]

/-- The calls are made, and then the page of the registry is read. -/
theorem rollback_unnoticed_flags : letI := crc32Ieee
    let s := (performCalls flagCalls storedFlag.beginAcid).2
    let s' : InTransaction := { s with db.file := readOthers [0] s.db.file }
    ((performCalls flagCalls storedFlag.beginAcid).1.map fun r => r.toOption.isSome) =
        [true, true, false] ∧
      RolledBack storedFlag s'.rollback ∧ Unnoticed storedFlag s'.rollback := by
  let := crc32Ieee
  have hclean : storedFlag.file.writeState = ⟨∅, 0⟩ := by
    have hempty : storedFlag.file.writeState.dirty.entries = [] ∧
        storedFlag.file.writeState.newPageCount = 0 := by decide +kernel
    generalize storedFlag.file.writeState = state at hempty
    obtain ⟨hdirty, hcount⟩ := hempty
    cases state
    exact congrArg₂ WriteState.mk (AList.ext hdirty) hcount
  have hcalls : ((performCalls flagCalls storedFlag.beginAcid).1.map fun r => r.toOption.isSome) =
      [true, true, false] := by decide +kernel
  have hrun := openRun_performCalls flagCalls (s := storedFlag.beginAcid) (by decide +kernel)
  exact ⟨hcalls, rollback_unnoticed hclean (hrun.tail (.reads [0]))⟩

end BoogyDb
