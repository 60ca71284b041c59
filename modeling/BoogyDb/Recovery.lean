import BoogyDb.Db

/-!
# Opening, closing and crashing

`Storage` is what is on the disk: the data file and the log.  `Db.open` replays the
log into the data file, and then reads the registry from page 0.  `Db.close` is
`Drop`: it writes the registry, flushes the cached pages and truncates the log.
A process that stops without it leaves the data file as it was opened, and the log.
-/

namespace BoogyDb

open WriteGuard

/-- The data file, in pages, and the bytes of the log. -/
structure Storage where
  disk : List Page
  walFile : List UInt8

/-- `seek` to a page and `write_all`; a gap reads as zeros. -/
def writePageAt (disk : List Page) (pageNo : ℕ) (page : Page) : List Page :=
  (disk ++ List.replicate (pageNo + 1 - disk.length) Page.zeroed).set pageNo page

namespace PageFile

/-- Write a page to the disk and the cache. -/
def putPageDirect (file : PageFile) (pageNo : ℕ) (page : Page) : Result PageFile :=
  if file.numPages ≤ pageNo ∧ pageNoLimit ≤ pageNo + 1 then overflowed
  else .ok { file with
    disk := writePageAt file.disk pageNo page
    numPages := if file.numPages ≤ pageNo then pageNo + 1 else file.numPages
    pages := (file.pages ++ List.replicate (pageNo + 1 - file.pages.length) none).set pageNo
      (some page) }

/-- Flush all cached pages. -/
def syncAll (file : PageFile) : PageFile :=
  { file with
    disk := file.pages.zipIdx.foldl (fun disk slot =>
      match slot.1 with
      | some page => writePageAt disk slot.2 page
      | none => disk) file.disk }

end PageFile

namespace Db

section

variable [Crc32Fast]

/-- Redo what is in the log, and truncate it. -/
def recover (storage : Storage) : Result Storage := do
  let wal ← Wal.open storage.walFile
  if 0 < wal.entryCount then
    let entries ← wal.readEntries
    let file ← entries.foldlM (fun file entry => file.putPageDirect entry.pageNo entry.pageData)
      (PageFile.open storage.disk)
    pure ⟨file.syncAll.disk, wal.truncate.file⟩
  else pure ⟨storage.disk, wal.file⟩

/-- The tables and the next table id, if page 0 holds a registry. -/
def loadRegistry (file : PageFile) : Result ((AList fun _ : String => TableMeta) × UInt32) :=
  if 0 < file.pageCount then do
    let page0 ← file.readPage 0
    if page0.flags &&& pageSystem ≠ 0 then
      let (metas, nextTableId) ← deserializeSystemPage page0 file
      pure (metas.foldl (fun tables table => tables.insert table.state.name table.state) ∅,
        nextTableId)
    else pure (∅, 1)
  else pure (∅, 1)

/-- `BoogyDb::open`. -/
def «open» (storage : Storage) : Result Db := do
  let storage ← recover storage
  let file := PageFile.open storage.disk
  let wal ← Wal.open storage.walFile
  let (tables, nextTableId) ← loadRegistry file
  pure
    { file
      wal
      tables
      nextTableId
      durability := .normal
      acid := false
      maxRowSize := 10 * 1024 * 1024 }

/-- The file when `Drop` has published the registry; what cannot be written is passed over. -/
def closingFile (db : Db) : PageFile :=
  let file :=
    if db.file.pageCount = 0 then
      match allocatePage db.file with
      | .ok _ file => file
      | .error _ file => file
    else db.file
  let file :=
    match serializeSystemPage (db.snapshotTableMetas.map TableMeta.record) db.nextTableId file with
    | .ok (page0, overflowPages) file =>
        overflowPages.foldl (fun file p => { file with
            writeState.dirty := file.writeState.dirty.insert p.1 p.2 })
          { file with writeState.dirty := file.writeState.dirty.insert 0 page0 }
    | .error _ file => file
  match WriteGuard.commit file with
  | .ok (_, file) => file
  | .error _ => file

/-- `Drop`. -/
def close (db : Db) : Storage := ⟨db.closingFile.syncAll.disk, db.wal.truncate.file⟩

end

/-- What a process that stops leaves behind. -/
def crash (db : Db) : Storage := ⟨db.file.disk, db.wal.file⟩

end Db

end BoogyDb
