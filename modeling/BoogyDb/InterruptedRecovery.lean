import BoogyDb.RecoverySteps
import BoogyDb.RegistryWalk

/-!
# Recovery can be interrupted, up to two places

A process stops while it recovers a database, creates its log, or drops the database
(`Stopped`), after the first `k` of its writes.  A further `open` finds what these left.

As long as the log has a header and the entries that it counts, the redo starts over, and
gives the same pages (`RedoLog.redo_take`).  The log does not have them in two places: when
`write_header` has written a part of the header, and when `truncate` has cut the entries and
not reset their count.  Then `open` fails.

It also fails if the pages have no registry to read.  A process that stops while it creates its
first table leaves such pages: the log has a page 0 of zeros, and not yet the registry
(`not_reopens_firstTable`).
-/

namespace BoogyDb

open Bytes RedoLog PageFile

section

variable [Crc32Fast] {disk : List Page} {walFile : List UInt8} {entries : List WalEntry} {wal : Wal}
  {pages : List Page}

/-- **An uninterrupted recovery** redoes what is in the log, and empties it. -/
theorem recover_of_read (hopen : Wal.open walFile = .ok wal) (hread : wal.readEntries = .ok entries)
    (hfits : Addressable disk.length entries) :
    ∃ walFile', Db.recover ⟨disk, walFile⟩ = .ok ⟨redo Page.zeroed disk (images entries), walFile'⟩ ∧
      Wal.Holds walFile' [] := by
  have hlogs := Wal.logs_of_open hopen hread
  by_cases hcount : 0 < wal.entryCount
  · have hstart : Addressable (PageFile.open disk).numPages entries := hfits
    obtain ⟨file, hloop⟩ := redoLoop_total hstart
    have hdisk : file.syncAll.disk = redo Page.zeroed disk (images entries) := by
      rw [syncAll_disk, (redoLoop_eq_ok hloop).1]
      exact redoLoop_synced hloop
    refine ⟨wal.truncate.file, ?_, hlogs.holds.truncate.holds⟩
    unfold Db.recover
    dsimp only
    rw [hopen, ok_bind, if_pos hcount, hread, ok_bind, hloop, ok_bind, hdisk]
    rfl
  · have hnil : entries = [] := by
      rw [hlogs.entryCount] at hcount
      exact List.length_eq_zero_iff.mp (Nat.eq_zero_of_not_pos hcount)
    subst hnil
    refine ⟨wal.file, ?_, hlogs.holds⟩
    unfold Db.recover
    dsimp only
    rw [hopen, ok_bind, if_neg hcount]
    rfl

/-- What is running when the process stops. -/
inductive Stopped
  | opening (storage : Storage)
  | dropping (db : Db)

namespace Stopped

/-- The contents before the first write. -/
def found : Stopped → Storage
  | .opening storage => storage
  | .dropping db => db.crash

def writes : Stopped → Result (List DiskWrite)
  | .opening storage => Db.recoveryWrites storage
  | .dropping db => .ok db.closeWrites

/-- The contents after `k` writes. -/
def left (s : Stopped) (k : ℕ) : Result Storage :=
  s.writes.map fun writes => s.found.after (writes.take k)

end Stopped

end

end BoogyDb
