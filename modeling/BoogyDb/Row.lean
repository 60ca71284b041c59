import BoogyDb.Lib.BinarySearch
import BoogyDb.Value
import Mathlib.Data.List.Sort

/-!
# The row codec

A row is `[rowid:8][num_cols:2]`, a directory of `[col_id:2][data_offset:2]`
sorted by column id, and the column data.  Offsets are relative to the column
data and are kept in 16 bits; `encodeRow` writes them with a truncating cast.

Everything here is translated from `row.rs`: the encoder, the in-place patch and
the three readers of the directory (`decodeRow`, `extractColumnRaw`,
`extractColumn`).
-/

namespace BoogyDb

open Bytes BinarySearch

/-- A column of a row: its id and its value. -/
abbrev Column := UInt16 × Value

def tagNull : UInt8 := 0
def tagText : UInt8 := 1
def tagInteger : UInt8 := 2
def tagReal : UInt8 := 3
def tagBlob : UInt8 := 4
def tagBoolean : UInt8 := 5

/-! ## Encoding -/

/-- `encode_value_to_vec`: the type tag and the value bytes. -/
def encodeValue : Value → List UInt8
  | .null => [tagNull]
  | .text s => tagText :: (leBytes 4 (asBytes s).length ++ asBytes s)
  | .integer i => tagInteger :: leBytes 8 i.toUInt64.toNat
  | .real bits => tagReal :: leBytes 8 bits.toNat
  | .blob b => tagBlob :: (leBytes 4 b.length ++ b)
  | .boolean b => [tagBoolean, if b then 1 else 0]

/-- The columns in the order of the directory. -/
def sortColumns (columns : List Column) : List Column :=
  columns.mergeSort fun a b => decide (a.1 ≤ b.1)

theorem sortColumns_eq_self {columns : List Column}
    (h : columns.Pairwise fun a b => a.1 ≤ b.1) : sortColumns columns = columns :=
  List.mergeSort_of_pairwise (h.imp fun hab => decide_eq_true hab)

/-- The column data: the encoded values one after the other. -/
def columnData (sorted : List Column) : List UInt8 := sorted.flatMap fun c => encodeValue c.2

/-- The directory, for columns whose data starts `sofar` bytes into the column
data; `data_offset` is `col_data.len() as u16`. -/
def directory (sofar : ℕ) : List Column → List UInt8
  | [] => []
  | (colId, val) :: rest =>
      leBytes 2 colId.toNat ++ leBytes 2 sofar ++
        directory (sofar + (encodeValue val).length) rest

def encodeRow (rowid : UInt64) (columns : List Column) : List UInt8 :=
  let sorted := sortColumns columns
  leBytes 8 rowid.toNat ++ leBytes 2 columns.length ++ directory 0 sorted ++ columnData sorted

/-! ## Decoding -/

def ensureBytes (data : List UInt8) (offset need : ℕ) : Result Unit :=
  if offset + need > data.length then
    fail (.corruption s!"truncated: need {need} bytes at offset {offset}, have {data.length}")
  else .ok ()

/-- Decode one value; the second component is the number of bytes read. -/
def decodeValue (data : List UInt8) : Result (Value × ℕ) := do
  ensureBytes data 0 1
  match data.headD 0 with
  | 0 => pure (.null, 1)
  | 1 =>
    ensureBytes data 1 4
    let len ← readU32 data 1
    ensureBytes data 5 len
    let bs ← bytesOf data 5 (5 + len)
    match fromUtf8? bs with
    | some s => pure (.text s, 5 + len)
    | none => fail (.corruption "invalid utf8")
  | 2 =>
    ensureBytes data 1 8
    let i ← readU64 data 1
    pure (.integer i.toInt64, 9)
  | 3 =>
    ensureBytes data 1 8
    let bits ← readU64 data 1
    pure (.real bits, 9)
  | 4 =>
    ensureBytes data 1 4
    let len ← readU32 data 1
    ensureBytes data 5 len
    let bs ← bytesOf data 5 (5 + len)
    pure (.blob bs, 5 + len)
  | 5 =>
    ensureBytes data 1 1
    pure (.boolean (data.getD 1 0 != 0), 2)
  | tag => fail (.corruption s!"unknown type tag: {tag}")

structure DecodedRow where
  id : UInt64
  columns : List Column
deriving DecidableEq

/-- The offset of the directory: after rowid and column count. -/
def dirStart : ℕ := 10

/-- The column id of directory entry `i`. -/
def entryColId (data : List UInt8) (i : ℕ) : Result UInt16 := do
  let colId ← readU16 data (dirStart + i * 4)
  pure (UInt16.ofNat colId)

/-- The data offset of directory entry `i`. -/
def entryOffset (data : List UInt8) (i : ℕ) : Result ℕ := readU16 data (dirStart + i * 4 + 2)

/-- `decode_value(&data[off..])`. -/
def decodeValueAt (data : List UInt8) (off : ℕ) : Result Value := do
  let tail ← bytesOf data off data.length
  let (val, _) ← decodeValue tail
  pure val

def decodeRow (data : List UInt8) : Result DecodedRow := do
  ensureBytes data 0 8
  let id ← readU64 data 0
  ensureBytes data 8 2
  let numCols ← readU16 data 8
  ensureBytes data dirStart (numCols * 4)
  let colDataStart := dirStart + numCols * 4
  let columns ← (List.range numCols).mapM fun i => do
    let colId ← entryColId data i
    let dataOffset ← entryOffset data i
    let val ← decodeValueAt data (colDataStart + dataOffset)
    pure (colId, val)
  pure { id, columns }

/-- Extract just the rowid from row bytes. -/
def extractId (data : List UInt8) : Result UInt64 := do
  ensureBytes data 0 8
  readU64 data 0

/-- Compare the column id of directory entry `mid` with the target. -/
def probeColumn (data : List UInt8) (target : UInt16) (mid : ℕ) : Result Ordering := do
  ensureBytes data (dirStart + mid * 4) 4
  let colId ← entryColId data mid
  pure (compare colId target)

/-- The bytes of a column, tag included, without decoding them. -/
def extractColumnRaw (data : List UInt8) (target : UInt16) : Result (Option (List UInt8)) := do
  ensureBytes data 0 8
  ensureBytes data 8 2
  let numCols ← readU16 data 8
  if numCols = 0 then pure none
  else
    let colDataStart := dirStart + numCols * 4
    let (mid, found) ← bsearch (probeColumn data target) 0 numCols
    if found then
      let dataOffset ← entryOffset data mid
      let nextOffset ←
        if mid + 1 < numCols then do
          let next ← entryOffset data (mid + 1)
          pure (colDataStart + next)
        else pure data.length
      let raw ← bytesOf data (colDataStart + dataOffset) nextOffset
      pure (some raw)
    else pure none

/-- The value of a column, found by binary search on the directory. -/
def extractColumn (data : List UInt8) (target : UInt16) : Result (Option Value) := do
  ensureBytes data 0 8
  ensureBytes data 8 2
  let numCols ← readU16 data 8
  if numCols = 0 then pure none
  else
    let colDataStart := dirStart + numCols * 4
    let (mid, found) ← bsearch (probeColumn data target) 0 numCols
    if found then
      let dataOffset ← entryOffset data mid
      let val ← decodeValueAt data (colDataStart + dataOffset)
      pure (some val)
    else pure none

/-! ## Patching in place -/

/-- Add `sizeDiff` to the data offset of directory entry `i`: `old_off + size_diff as i32`,
where the cast keeps the low 32 bits of the difference and the sum may leave the range of an
`i32`. -/
def shiftEntry (sizeDiff : ℤ) (result : List UInt8) (i : ℕ) : Result (List UInt8) := do
  let oldOff ← entryOffset result i
  let newOff := (oldOff : ℤ) + sizeDiff.bmod (2 ^ 32)
  if newOff ≥ 2 ^ 31 then overflowed
  else if newOff < 0 ∨ newOff > 65535 then
    fail (.corruption "row offset overflow during patch")
  else pure (blit result (dirStart + i * 4 + 2) (leBytes 2 newOff.toNat))

/-- Replace a single column's value in a row; a row without the column is
returned unchanged. -/
def patchRow (data : List UInt8) (target : UInt16) (newVal : Value) : Result (List UInt8) := do
  ensureBytes data 0 10
  let numCols ← readU16 data 8
  if numCols = 0 then pure data
  else
    let colDataStart := dirStart + numCols * 4
    let (colIdx, found) ← bsearch
      (fun mid => do let colId ← entryColId data mid; pure (compare colId target)) 0 numCols
    if found then
      let oldDataOffset ← entryOffset data colIdx
      let oldAbsStart := colDataStart + oldDataOffset
      let oldAbsEnd ←
        if colIdx + 1 < numCols then do
          let next ← entryOffset data (colIdx + 1)
          pure (colDataStart + next)
        else pure data.length
      -- `old_abs_end - old_abs_start` underflows when the directory is not ascending
      if oldAbsEnd < oldAbsStart then overflowed
      else
        let oldLen := oldAbsEnd - oldAbsStart
        let newEncoded := encodeValue newVal
        let sizeDiff : ℤ := (newEncoded.length : ℤ) - oldLen
        if sizeDiff = 0 then
          let _ ← bytesOf data oldAbsStart oldAbsEnd
          pure (blit data oldAbsStart newEncoded)
        else
          let before ← bytesOf data 0 oldAbsStart
          let after ← bytesOf data oldAbsEnd data.length
          let result := before ++ newEncoded ++ after
          (List.range' (colIdx + 1) (numCols - (colIdx + 1))).foldlM (shiftEntry sizeDiff) result
    else pure data

/-- Patch several columns, one after the other. -/
def patchRowMulti (data : List UInt8) (patches : List Column) : Result (List UInt8) :=
  patches.foldlM (fun result (colId, val) => patchRow result colId val) data

end BoogyDb
