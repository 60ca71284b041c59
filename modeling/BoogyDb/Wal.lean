import BoogyDb.File

/-!
# The write-ahead log

The log file is a 16-byte header `[magic:4][version:4][entry_count:4][reserved:4]`
and entries `[seq:8][table_id:4][page_no:4][page:4096][checksum:4]`.  Appending an
entry writes it behind the counted ones and then counts it, so what a reader finds
are the entries whose count was written.
-/

namespace BoogyDb

open Bytes

def walHeaderSize : ℕ := 16

/-- `WAL_ENTRY_SIZE`. -/
def walEntrySize : ℕ := 8 + 4 + 4 + pageSize + 4

def walMagic : ℕ := 0xB00D0A01

structure WalEntry where
  sequence : UInt64
  tableId : UInt32
  pageNo : ℕ
  pageData : Page

/-- The open log: its file and what is kept in memory about it. -/
structure Wal where
  file : List UInt8
  nextSequence : UInt64
  entryCount : ℕ

namespace Wal

/-- `write_all` at an offset; a gap is filled with zeros. -/
def writeAt (file : List UInt8) (offset : ℕ) (src : List UInt8) : List UInt8 :=
  blit (pad (max file.length (offset + src.length)) file) offset src

def header (entryCount : ℕ) : List UInt8 :=
  leBytes 4 walMagic ++ leBytes 4 1 ++ leBytes 4 entryCount ++ leBytes 4 0

/-- `Wal::open` on the bytes of the file. -/
def «open» (file : List UInt8) : Result Wal :=
  if file.length = 0 then .ok ⟨header 0, 1, 0⟩
  else do
    if file.length < walHeaderSize then fail (.io "failed to fill whole buffer")
    else if readLe file 0 4 ≠ walMagic then fail (.corruption "bad WAL magic")
    else pure ⟨file, UInt64.ofNat (readLe file 8 4) + 1, readLe file 8 4⟩

def updateEntryCount (wal : Wal) : Wal :=
  { wal with file := writeAt wal.file 8 (leBytes 4 wal.entryCount) }

section

variable [Crc32Fast]

/-- An entry without its checksum. -/
def entryBody (seq : UInt64) (tableId : UInt32) (pageNo : ℕ) (page : Page) : List UInt8 :=
  leBytes 8 seq.toNat ++ leBytes 4 tableId.toNat ++ leBytes 4 pageNo ++ page.data

def entryBytes (seq : UInt64) (tableId : UInt32) (pageNo : ℕ) (page : Page) : List UInt8 :=
  entryBody seq tableId pageNo page ++
    leBytes 4 (Crc32Fast.hash (entryBody seq tableId pageNo page)).toNat

/-- Append an after-image of a page. -/
def appendPageImage (tableId : UInt32) (pageNo : ℕ) (page : Page) : StateResult Wal UInt64 :=
  fun wal =>
    if wal.entryCount = 2 ^ 32 - 1 then
      .error (.error (.corruption "WAL entry count overflow")) wal
    else if wal.nextSequence.toNat = 2 ^ 64 - 1 then .error .overflow wal
    else
      let seq := wal.nextSequence
      .ok seq (updateEntryCount
        { file := writeAt wal.file (walHeaderSize + wal.entryCount * walEntrySize)
            (entryBytes seq tableId pageNo page)
          nextSequence := seq + 1
          entryCount := wal.entryCount + 1 })

/-- The entry at position `i` of the file. -/
def readEntry (file : List UInt8) (i : ℕ) : Result WalEntry := do
  let offset := walHeaderSize + i * walEntrySize
  if h : offset + walEntrySize ≤ file.length then
    let buf := slice file offset (offset + walEntrySize)
    let stored := readLe buf (16 + pageSize) 4
    if stored ≠ (Crc32Fast.hash (slice buf 0 (16 + pageSize))).toNat then
      fail (.corruption s!"WAL entry {readLe buf 0 8} checksum mismatch")
    else
      pure { sequence := UInt64.ofNat (readLe buf 0 8)
             tableId := UInt32.ofNat (readLe buf 8 4)
             pageNo := readLe buf 12 4
             pageData := ⟨slice buf 16 (16 + pageSize), by
               have hbuf : buf.length = walEntrySize := by
                 rw [length_slice h]
                 omega
               rw [length_slice (by rw [hbuf, walEntrySize]; omega)]
               omega⟩ }
  else fail (.io "failed to fill whole buffer")

def readEntries (wal : Wal) : Result (List WalEntry) :=
  (List.range wal.entryCount).mapM (readEntry wal.file)

end

def truncate (wal : Wal) : Wal :=
  updateEntryCount { file := pad walHeaderSize wal.file, nextSequence := 1, entryCount := 0 }

end Wal

end BoogyDb
