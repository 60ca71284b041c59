import BoogyDb.IndexKey
import BoogyDb.PageOwners
import BoogyDb.Registry
import BoogyDb.Wal

/-!
# The database and its commits

`Db` is the database handle `BoogyDb`.  An operation on a table holds the table's
lock: it works on a `Session`, the state of that table with the file and the log,
and what it did to them stays when it fails.  The dirty overlay belongs to the
file, so what a failed operation left there is found by the next one.

`commitWrite` publishes the overlay and logs an after-image of each of its pages;
`persistRegistry` writes the registry to page 0 and commits.
-/

namespace BoogyDb

open WriteGuard

inductive Durability
  | immediate
  | normal
  | none
deriving DecidableEq

/-- The database handle. -/
structure Db where
  file : PageFile
  wal : Wal
  tables : AList fun _ : String => TableMeta
  nextTableId : UInt32
  durability : Durability
  acid : Bool
  maxRowSize : UInt32

/-- A table under its lock, with the file, the log and the settings. -/
structure Session where
  state : TableMeta
  file : PageFile
  wal : Wal
  durability : Durability
  maxRowSize : UInt32

/-- Run on the page file, as a write guard does. -/
def inGuard {α : Type} (x : StateResult WriteGuard α) : StateResult Session α := fun s =>
  match x s.file with
  | .ok a file => .ok a { s with file }
  | .error e file => .error e { s with file }

/-- Change the state of the table. -/
def modifyState (f : TableMeta → TableMeta) : StateResult Session Unit := fun s =>
  .ok () { s with state := f s.state }

/-- `+= 1` on a 64-bit counter. -/
def addOne (n : UInt64) : Result UInt64 :=
  if n.toNat + 1 < 2 ^ 64 then .ok (n + 1) else overflowed

section

variable [Crc32Fast]

/-- Append after-images to the log, in the order they come in. -/
def logImages (tableId : UInt32) : List (ℕ × Page) → StateResult Wal Unit
  | [] => pure ()
  | (pageNo, page) :: images => do
      let _ ← Wal.appendPageImage tableId pageNo page
      logImages tableId images

/-- Commit a write guard. -/
def commitFile (durability : Durability) (tableId : UInt32) (file : PageFile) (wal : Wal) :
    Except (Fault × PageFile × Wal) (PageFile × Wal) :=
  match WriteGuard.commit file with
  | .error e => .error (e, file, wal)
  | .ok (afterImages, file) =>
    if durability = .none then .ok (file, wal)
    else
      match logImages tableId afterImages wal with
      | .ok _ wal => .ok (file, wal)
      | .error e wal => .error (e, file, wal)

/-- `commit_write` of an operation on a table. -/
def commitWrite : StateResult Session Unit := fun s =>
  match commitFile s.durability s.state.tableId s.file s.wal with
  | .ok (file, wal) => .ok () { s with file, wal }
  | .error (e, file, wal) => .error e { s with file, wal }

/-- Write the registry to the system page. -/
def writeRegistry (metas : List TableMeta) (nextTableId : UInt32) : StateResult WriteGuard Unit := do
  let pageCount ← readOnly fun guard => .ok guard.pageCount
  -- page 0 is the first page of the file
  if pageCount = 0 then discard allocatePage else pure ()
  let (page0, overflowPages) ← serializeSystemPage (metas.map TableMeta.record) nextTableId
  putPage 0 page0
  overflowPages.forM fun p => putPage p.1 p.2

namespace Db

/-- The tables with their states, in the order of the map. -/
def snapshotTableMetas (db : Db) : List TableMeta := db.tables.entries.map fun e => e.2

/-- Run a call on the page file and the log. -/
def inFile {α : Type} (x : StateResult WriteGuard α) : StateResult Db α := fun db =>
  match x db.file with
  | .ok a file => .ok a { db with file }
  | .error e file => .error e { db with file }

def commitWrite (tableId : UInt32) : StateResult Db Unit := fun db =>
  match commitFile db.durability tableId db.file db.wal with
  | .ok (file, wal) => .ok () { db with file, wal }
  | .error (e, file, wal) => .error e { db with file, wal }

/-- `snapshot_table_metas` and `persist_registry`. -/
def persistRegistry : StateResult Db Unit := do
  let db ← get
  inFile (writeRegistry db.snapshotTableMetas db.nextTableId)
  commitWrite 0

/-- What a session leaves behind. -/
def leave (db : Db) (table : String) (s : Session) : Db :=
  { db with file := s.file, wal := s.wal, tables := db.tables.replace table s.state }

/-- Lock a table and run `x`. -/
def withTable {α : Type} (table : String) (x : StateResult Session α) : StateResult Db α :=
  fun db =>
    match db.tables.lookup table with
    | none => .error (.error (.tableNotFound table)) db
    | some state =>
      match x ⟨state, db.file, db.wal, db.durability, db.maxRowSize⟩ with
      | .ok a s => .ok a (db.leave table s)
      | .error e s => .error e (db.leave table s)

end Db

end

end BoogyDb
