import BoogyDb.DbRuns
import BoogyDb.InterruptedRecovery
import BoogyDb.LoggedCalls

/-!
# The log reproduces the shared pages

A history of a process (`History`) is made of calls that return a value or an error, of
transactions that are begun, called, committed and dropped in any order, and of reads, which
fill the cache.  The durability is `Immediate` or `Normal` all along.

A crash may fall within the append of an entry; the next process reads the entries whose
append was complete (`CrashFile`).  If the log was never full, recovery gives every page the
image it had (`redo_reproduces`).
-/

namespace BoogyDb

open Bytes Wp RedoLog PageFile

section

variable [Crc32Fast]

/-! ## Histories -/

/-- A database, and the transactions that are open. -/
structure Process where
  db : Db
  txs : List AcidTransaction

/-- `x` returns, or fails with an error of the database. -/
def Ends {σ α : Type} (x : StateResult σ α) (s : σ) (e : Option BoogyError) (s' : σ) : Prop :=
  (e = none ∧ ∃ a, x s = .ok a s') ∨ ∃ error, e = some error ∧ x s = .error (.error error) s'

/-- One call of the process, with the error it returns. -/
inductive HistoryStep : Process → Option BoogyError → Process → Prop
  | call {db db' : Db} {txs : List AcidTransaction} {call : Call} {e : Option BoogyError}
      (hdur : call ≠ .setDurability .none) (h : Ends (call.perform .code) db e db') :
      HistoryStep ⟨db, txs⟩ e ⟨db', txs⟩
  | read {db : Db} {txs : List AcidTransaction} (pageNo : ℕ) :
      HistoryStep ⟨db, txs⟩ none
        ⟨{ db with file := stateAfter (readPageCaching pageNo) db.file }, txs⟩
  /-- `flush_transaction`, the end of a transaction outside ACID mode. -/
  | flush {db db' : Db} {txs : List AcidTransaction} {e : Option BoogyError}
      (h : Ends (Db.commitWrite 0) db e db') : HistoryStep ⟨db, txs⟩ e ⟨db', txs⟩
  | begin {db : Db} {txs : List AcidTransaction} : HistoryStep ⟨db, txs⟩ none ⟨db, txs ++ [.new]⟩
  | txCall {db : Db} {before after : List AcidTransaction} {tx : AcidTransaction} {call : TxCall}
      {e : Option BoogyError} {s : InTransaction} (h : Ends (call.perform .code) ⟨db, tx⟩ e s) :
      HistoryStep ⟨db, before ++ tx :: after⟩ e ⟨s.db, before ++ s.tx :: after⟩
  | txCommit {db : Db} {before after : List AcidTransaction} {tx : AcidTransaction}
      {e : Option BoogyError} {s : InTransaction} (h : Ends InTransaction.commit ⟨db, tx⟩ e s) :
      HistoryStep ⟨db, before ++ tx :: after⟩ e ⟨s.db, before ++ after⟩
  | txDrop {db : Db} {before after : List AcidTransaction} {tx : AcidTransaction} :
      HistoryStep ⟨db, before ++ tx :: after⟩ none ⟨db, before ++ after⟩

/-- A sequence of calls, with the errors they returned. -/
inductive History (p : Process) : List BoogyError → Process → Prop
  | refl : History p [] p
  | step {errors : List BoogyError} {q r : Process} {e : Option BoogyError}
      (h : History p errors q) (hstep : HistoryStep q e r) : History p (errors ++ e.toList) r

/-! ## What a step keeps -/

variable {wal₀ : Wal} {complete : Prop}

theorem Ends.redoable {σ α : Type} [Logging σ] {x : StateResult σ α} {s s' : σ}
    {e : Option BoogyError} (hx : KeepsLog x) (hstart : wal₀.Logs [])
    (hs : Redoable wal₀ complete s) (h : Ends x s e s') :
    Redoable wal₀ (complete ∧ ∀ error ∈ e, Fault.error error ≠ walFull) s' := by
  have hrun := hx wal₀ complete s hstart hs
  rcases h with ⟨rfl, a, hok⟩ | ⟨error, rfl, herror⟩
  · exact ((wp_of_ok hok).mp hrun).mono And.left
  · exact ((wp_of_error herror).mp hrun).mono fun hc => ⟨hc.1, hc.2 error rfl⟩

theorem HistoryStep.redoable {p q : Process} {e : Option BoogyError} (hstart : wal₀.Logs [])
    (hp : Redoable wal₀ complete p.db) (h : HistoryStep p e q) :
    Redoable wal₀ (complete ∧ ∀ error ∈ e, Fault.error error ≠ walFull) q.db := by
  cases h with
  | call hdur h => exact h.redoable (KeepsLog.perform _ hdur) hstart hp
  | read pageNo => exact ⟨hp.1, (hp.2.read pageNo).mono And.left⟩
  | flush h => exact h.redoable (KeepsLog.dbCommitWrite 0) hstart hp
  | begin => exact hp.mono And.left
  | @txCall db _ _ tx call _ s h =>
      have hs : Redoable wal₀ complete (⟨db, tx⟩ : InTransaction) := hp
      have hcall : KeepsLog (call.perform .code) :=
        KeepsLog.of_leavesDb (LeavesDb.perform OverlayFrom.code call)
      have hend : Redoable wal₀ _ s := h.redoable hcall hstart hs
      exact hend
  | @txCommit db _ _ tx _ s h =>
      have hs : Redoable wal₀ complete (⟨db, tx⟩ : InTransaction) := hp
      have hend : Redoable wal₀ _ s := h.redoable KeepsLog.txCommit hstart hs
      exact hend
  | txDrop => exact hp.mono And.left

/-- The error of a call that finds the log full. -/
def walFullError : BoogyError := .corruption "WAL entry count overflow"

theorem History.redoable {p q : Process} {errors : List BoogyError} (hstart : wal₀.Logs [])
    (hp : Redoable wal₀ True p.db) (h : History p errors q) :
    Redoable wal₀ (walFullError ∉ errors) q.db := by
  induction h with
  | refl => exact hp.mono fun _ => trivial
  | step h hstep ih =>
      refine (hstep.redoable hstart ih).mono fun hnot => ?_
      rw [List.mem_append, not_or] at hnot
      refine ⟨hnot.1, fun error herror heq => hnot.2 ?_⟩
      rw [Option.mem_toList]
      cases heq
      exact herror

/-! ## The start of a process -/

/-- Recovery empties the log. -/
theorem holds_of_recover {storage storage' : Storage} (h : Db.recover storage = .ok storage') :
    Wal.Holds storage'.walFile [] := by
  unfold Db.recover at h
  obtain ⟨wal, hopen, h⟩ := bind_eq_ok.mp h
  by_cases hcount : 0 < wal.entryCount
  · rw [if_pos hcount] at h
    obtain ⟨entries, hread, h⟩ := bind_eq_ok.mp h
    obtain ⟨file, -, h⟩ := bind_eq_ok.mp h
    cases h
    exact (Wal.logs_of_open hopen hread).holds.truncate.holds
  · rw [if_neg hcount] at h
    cases h
    have hread : wal.readEntries = .ok [] := by
      unfold Wal.readEntries
      rw [Nat.eq_zero_of_not_pos hcount]
      rfl
    exact (Wal.logs_of_open hopen hread).holds

/-- A database that was opened has an empty log, and an empty cache. -/
theorem redoable_open {storage : Storage} {db : Db} (h : Db.open storage = .ok db) :
    db.wal.Logs [] ∧ Redoable db.wal True db := by
  unfold Db.open at h
  obtain ⟨storage', hrecover, h⟩ := bind_eq_ok.mp h
  obtain ⟨wal, hwal, h⟩ := bind_eq_ok.mp h
  obtain ⟨⟨tables, nextTableId⟩, -, h⟩ := bind_eq_ok.mp h
  cases h
  obtain ⟨wal', hwal', hlogs, -⟩ := (holds_of_recover hrecover).open
  rw [hwal] at hwal'
  obtain rfl := Except.ok.inj hwal'
  have hlog : LogOf wal True (PageFile.open storage'.disk) wal :=
    ⟨sized_open _, [], .refl, fun _ hmem => (nomatch hmem), fun _ => cached_open _⟩
  have hdur : Durability.normal ≠ .none := by decide
  exact ⟨hlogs, hdur, hlog⟩

/-! ## Crashes -/

/-- The log as a crash leaves it: as it is, or with a part of one more entry behind it that
is not counted. -/
inductive CrashFile (wal : Wal) : List UInt8 → Prop
  | whole : CrashFile wal wal.file
  | torn (tableId : UInt32) (pageNo : ℕ) (page : Page) (k : ℕ) :
      CrashFile wal (Wal.writeAt wal.file (walHeaderSize + wal.entryCount * walEntrySize)
        ((Wal.entryBytes wal.nextSequence tableId pageNo page).take k))

theorem CrashFile.holds {wal : Wal} {entries : List WalEntry} {file : List UInt8}
    (hlogs : wal.Logs entries) (h : CrashFile wal file) : Wal.Holds file entries := by
  cases h with
  | whole => exact hlogs.holds
  | torn tableId pageNo page k => exact hlogs.holds_torn _ _ _ _ _

/-- **The log reproduces the shared pages.**  In every history of a process: the log is made
of appended entries; after a crash between two appends, or within one, exactly the entries
whose append was complete are read; and if no call found the log full, recovery gives every
page the image it has in the cache, or on the disk if it was never cached. -/
theorem redo_reproduces {storage : Storage} {db₀ : Db} {p : Process} {errors : List BoogyError}
    (hopen : Db.open storage = .ok db₀) (hist : History ⟨db₀, []⟩ errors p) :
    (∃ entries, Wal.Appended db₀.wal entries p.db.wal) ∧
      (∀ entries wal file, Wal.Appended db₀.wal entries wal → CrashFile wal file →
        ∃ wal', Wal.open file = .ok wal' ∧ wal'.readEntries = .ok entries) ∧
      (walFullError ∉ errors → ∃ storage', Db.recover p.db.crash = .ok storage' ∧
        ∀ pageNo page, p.db.file.image pageNo = some page →
          storage'.disk[pageNo]? = some page) := by
  obtain ⟨hstart, hredoable⟩ := redoable_open hopen
  obtain ⟨entries, happ, hbounds, hcached⟩ := (hist.redoable hstart hredoable).2.log
  refine ⟨⟨entries, happ⟩, fun entries wal file happ hcrash => ?_, fun hcomplete => ?_⟩
  · exact (hcrash.holds (happ.logs hstart)).read_back
  · obtain ⟨wal', hopen', hread⟩ := (happ.logs hstart).holds.read_back
    have hfits : Addressable p.db.file.disk.length entries := fun entry hmem =>
      .inr (hbounds entry hmem)
    obtain ⟨walFile', hrecover, -⟩ := recover_of_read hopen' hread hfits
    exact ⟨_, hrecover, fun pageNo page himage => (hcached hcomplete).redo himage⟩

end

/-- A table is created in a new database, and the process crashes. -/
theorem redo_reproduces_create : letI := crc32Ieee
    ∃ storage', Db.recover (stateAfter (createFlags.perform .code) newDb).crash = .ok storage' ∧
      ∀ pageNo page,
        (stateAfter (createFlags.perform .code) newDb).file.image pageNo = some page →
          storage'.disk[pageNo]? = some page := by
  let := crc32Ieee
  obtain ⟨reply, hcreate⟩ := createFlags_returns
  generalize stateAfter (createFlags.perform .code) newDb = db at hcreate ⊢
  have hdur : createFlags ≠ .setDurability .none := by
    unfold createFlags
    nofun
  have hstep : HistoryStep ⟨newDb, []⟩ none ⟨db, []⟩ := .call hdur (.inl ⟨rfl, reply, hcreate⟩)
  have hist : History ⟨newDb, []⟩ [] ⟨db, []⟩ := .step .refl hstep
  exact (redo_reproduces open_new hist).2.2 nofun

end BoogyDb
