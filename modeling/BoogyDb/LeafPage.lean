import BoogyDb.Page
import Mathlib.Algebra.Order.BigOperators.Group.List

/-!
# Leaf pages

A leaf page is an array of 16-bit row offsets followed by the rows; the free
space offset is where the last row ends.  `leafPage rows next prev` is the page
with the given rows and chain pointers.

The leaf rewriters of the two trees (`write_leaf_with_insert`,
`write_leaf_range`, `write_leaf_without` and their siblings) all clear the page
and copy rows into it one after the other; they differ in where each row comes
from and in the chain pointers they set.  `rebuildLeaf` is that loop over a list
of row sources, and `rebuildLeaf_lays` is the one fact about it: when the
sources yield `rows` and these fit, the page then holds exactly `rows`.
-/

namespace BoogyDb

open Bytes

/-- The byte range of row `i` (`row_bounds` and `row_bounds_raw`). -/
def rowBounds (page : Page) (i numRows : ℕ) : Result (ℕ × ℕ) := do
  let start ← page.rowOffset i
  let stop ← if i + 1 < numRows then page.rowOffset (i + 1) else pure page.freeSpaceOffset
  pure (start, stop)

/-- `&page.data[start..end]` for the bounds of row `i`. -/
def rowSlice (page : Page) (i numRows : ℕ) : Result (List UInt8) := do
  let (start, stop) ← rowBounds page i numRows
  bytesOf page.data start stop

/-! ## Rewriting a leaf -/

/-- Where a rewriter takes a row from: bytes it is given, or a row of the
snapshot. -/
inductive RowSource
  | given (bytes : List UInt8)
  | kept (idx : ℕ)
deriving DecidableEq

/-- The bytes of a source; `e - s` underflows on a row whose end is before its
start. -/
def RowSource.bytes (snapshot : Page) (oldCount : ℕ) : RowSource → Result (List UInt8)
  | .given bytes => pure bytes
  | .kept idx => do
      let (s, e) ← rowBounds snapshot idx oldCount
      if e < s then overflowed else bytesOf snapshot.data s e

/-- The state of a copy loop: the page, the next slot and the write position. -/
structure CopyState where
  page : Page
  dstIdx : ℕ
  writePos : ℕ

/-- One round of a copy loop: the bytes, then the offset slot. -/
def copyRow (snapshot : Page) (oldCount : ℕ) (st : CopyState) (src : RowSource) :
    Result CopyState := do
  let bytes ← src.bytes snapshot oldCount
  let page ← st.page.copyFromSlice st.writePos bytes
  let page ← page.setRowOffset st.dstIdx st.writePos
  pure ⟨page, st.dstIdx + 1, st.writePos + bytes.length⟩

/-- Clear `page` and write `total` rows into it. -/
def rebuildLeaf (page snapshot : Page) (oldCount total next prev : ℕ)
    (sources : List RowSource) : Result Page := do
  let page := (((page.setFlags pageLeaf).setNumRows 0).setNextLeaf next).setPrevLeaf prev
  let page := page.clearBody
  let dataStart := pageHeaderSize + total * 2
  let st ← sources.foldlM (copyRow snapshot oldCount) ⟨page, 0, dataStart⟩
  pure ((st.page.setNumRows total).setFreeSpaceOffset st.writePos)

/-- Position `i` of the old rows with `newRow` inserted at `insertPos`. -/
def virtualSource (insertPos : ℕ) (newRow : List UInt8) (i : ℕ) : RowSource :=
  if i = insertPos then .given newRow
  else if i < insertPos then .kept i
  else .kept (i - 1)

/-! ## The layout -/

/-- The bytes of the rows, without their offsets. -/
def dataSize (rows : List (List UInt8)) : ℕ := (rows.map List.length).sum

/-- The bytes a leaf with these rows occupies: header, offsets and rows. -/
def usedSize (rows : List (List UInt8)) : ℕ := pageHeaderSize + rows.length * 2 + dataSize rows

/-- The rows fit in a page, short of its checksum. -/
def Fits (rows : List (List UInt8)) : Prop := usedSize rows ≤ pageSize - checksumSize

instance (rows : List (List UInt8)) : Decidable (Fits rows) := Nat.decLe _ _

/-- The offset slots of rows that start at `start`. -/
def offsetArray (start : ℕ) : List (List UInt8) → List UInt8
  | [] => []
  | row :: rows => leBytes 2 start ++ offsetArray (start + row.length) rows

def leafBody (rows : List (List UInt8)) : List UInt8 :=
  offsetArray (pageHeaderSize + rows.length * 2) rows ++ rows.flatten

def leafHeader (rows : List (List UInt8)) (next prev : ℕ) : Header :=
  ⟨magicNumber, pageLeaf, rows.length, usedSize rows, next, prev⟩

/-- The leaf page with these rows and chain pointers. -/
def leafPage [Crc32Fast] (rows : List (List UInt8)) (next prev : ℕ) : Page :=
  pageOf (leafHeader rows next prev) (leafBody rows)

section

variable {rows : List (List UInt8)} {row : List UInt8}

@[simp] theorem dataSize_nil : dataSize [] = 0 := rfl

@[simp] theorem dataSize_cons : dataSize (row :: rows) = row.length + dataSize rows := rfl

@[simp] theorem dataSize_append (rows rows' : List (List UInt8)) :
    dataSize (rows ++ rows') = dataSize rows + dataSize rows' := by
  rw [dataSize, List.map_append, List.sum_append]
  rfl

theorem length_flatten (rows : List (List UInt8)) : rows.flatten.length = dataSize rows :=
  List.length_flatten

@[simp] theorem length_offsetArray (start : ℕ) (rows : List (List UInt8)) :
    (offsetArray start rows).length = rows.length * 2 := by
  induction rows generalizing start with
  | nil => rfl
  | cons row rows ih =>
      rw [offsetArray, List.length_append, length_leBytes, ih, List.length_cons]
      omega

theorem offsetArray_append (start : ℕ) (rows rows' : List (List UInt8)) :
    offsetArray start (rows ++ rows') =
      offsetArray start rows ++ offsetArray (start + dataSize rows) rows' := by
  induction rows generalizing start with
  | nil => simp [offsetArray]
  | cons row rows ih =>
      rw [List.cons_append, offsetArray, offsetArray, ih, dataSize_cons, List.append_assoc,
        Nat.add_assoc]

theorem length_leafBody (rows : List (List UInt8)) :
    (leafBody rows).length = rows.length * 2 + dataSize rows := by
  rw [leafBody, List.length_append, length_offsetArray, length_flatten]

theorem Fits.le (h : Fits rows) : pageHeaderSize + rows.length * 2 + dataSize rows ≤ 4092 := h

theorem Fits.length_lt (h : Fits rows) : rows.length < 2 ^ 16 := by
  have := h.le
  omega

theorem Fits.length_leafBody_le (h : Fits rows) : (leafBody rows).length ≤ payloadSize := by
  have := h.le
  rw [length_leafBody]
  simp only [pageHeaderSize, payloadSize] at *
  omega

theorem Fits.of_le {rows rows' : List (List UInt8)} (h : Fits rows)
    (hle : usedSize rows' ≤ usedSize rows) : Fits rows' := hle.trans h

/-- A leaf that loses rows still fits. -/
theorem Fits.sublist {rows rows' : List (List UInt8)} (h : Fits rows) (hsub : rows'.Sublist rows) :
    Fits rows' := by
  have hsum : dataSize rows' ≤ dataSize rows :=
    (hsub.map _).sum_le_sum fun _ _ => Nat.zero_le _
  have hlen := hsub.length_le
  refine h.of_le ?_
  rw [usedSize, usedSize]
  omega

end

/-! ## What a rewrite writes -/

section

variable {page snapshot : Page} {oldCount : ℕ} {sources : List RowSource}
  {done rest : List (List UInt8)} {start : ℕ} {h : Header}

theorem Page.copyFromSlice_ok {off : ℕ} {src : List UInt8} (hle : off + src.length ≤ pageSize) :
    page.copyFromSlice off src = .ok (page.write off src) := if_pos hle

/-- One row more: it is appended to the rows, and its offset fills the next
slot. -/
theorem copyRow_lays {row : List UInt8} {src : RowSource}
    (hsrc : src.bytes snapshot oldCount = .ok row)
    (hfits : pageHeaderSize + (done.length + (rest.length + 1)) * 2 +
      (dataSize done + row.length) ≤ 4092)
    (hstart : start = pageHeaderSize + (done.length + (rest.length + 1)) * 2)
    (hpage : Lays page h (offsetArray start done ++
      (List.replicate ((rest.length + 1) * 2) 0 ++ done.flatten))) :
    ∃ page', copyRow snapshot oldCount ⟨page, done.length, start + dataSize done⟩ src =
        .ok ⟨page', done.length + 1, start + dataSize done + row.length⟩ ∧
      Lays page' h (offsetArray start (done ++ [row]) ++
        (List.replicate (rest.length * 2) 0 ++ (done ++ [row]).flatten)) := by
  simp only [pageHeaderSize] at *
  set off := start + dataSize done with hoff
  have hcopy : off + row.length ≤ pageSize := by
    simp only [pageSize]
    omega
  have hslot : pageHeaderSize + done.length * 2 + (leBytes 2 off).length ≤ pageSize := by
    simp only [length_leBytes, pageHeaderSize, pageSize]
    omega
  refine ⟨(page.write off row).write (pageHeaderSize + done.length * 2) (leBytes 2 off), ?_, ?_⟩
  · rw [copyRow, hsrc, ok_bind, Page.copyFromSlice_ok hcopy, ok_bind, Page.setRowOffset,
      Page.copyFromSlice_ok hslot, ok_bind, pure_eq_ok]
  · have hlen : (offsetArray start done ++
        (List.replicate ((rest.length + 1) * 2) 0 ++ done.flatten)).length =
        off - pageHeaderSize := by
      simp only [List.length_append, length_offsetArray, List.length_replicate, length_flatten,
        pageHeaderSize]
      omega
    have hrow : Lays (page.write off row) h (offsetArray start done ++
        (List.replicate ((rest.length + 1) * 2) 0 ++ (done ++ [row]).flatten)) := by
      refine hpage.write_payload (by simp only [pageHeaderSize]; omega)
        (by simp only [pageHeaderSize, payloadSize]; omega) ?_
      rw [← hlen, blit_pad_end (by rw [hlen]; simp only [pageHeaderSize, payloadSize]; omega)]
      simp
    have hzeros : List.replicate ((rest.length + 1) * 2) (0 : UInt8) =
        List.replicate 2 0 ++ List.replicate (rest.length * 2) 0 := by
      rw [List.replicate_append_replicate]
      congr 1
      omega
    rw [hzeros, List.append_assoc] at hrow
    refine hrow.write_payload (Nat.le_add_right _ _)
      (by simp only [length_leBytes, pageHeaderSize, payloadSize]; omega) ?_
    have hslotoff : pageHeaderSize + done.length * 2 - pageHeaderSize =
        (offsetArray start done).length := by
      rw [length_offsetArray, Nat.add_sub_cancel_left]
    rw [hslotoff, blit_pad_middle (by simp), offsetArray_append, List.append_assoc]
    · rfl
    · simp only [List.length_append, length_offsetArray, List.length_replicate, length_flatten,
        dataSize_append, dataSize_cons, dataSize_nil, payloadSize]
      omega

/-- The copy loop appends the rows of its sources. -/
theorem copyRows_lays (hsrc : List.Forall₂ (fun src row => src.bytes snapshot oldCount = .ok row)
      sources rest)
    (hfits : pageHeaderSize + (done.length + rest.length) * 2 +
      (dataSize done + dataSize rest) ≤ 4092)
    (hstart : start = pageHeaderSize + (done.length + rest.length) * 2)
    (hpage : Lays page h (offsetArray start done ++
      (List.replicate (rest.length * 2) 0 ++ done.flatten))) :
    ∃ page', sources.foldlM (copyRow snapshot oldCount)
        ⟨page, done.length, start + dataSize done⟩ =
          .ok ⟨page', (done ++ rest).length, start + dataSize (done ++ rest)⟩ ∧
      Lays page' h (offsetArray start (done ++ rest) ++ (done ++ rest).flatten) := by
  induction hsrc generalizing page done with
  | nil => exact ⟨page, by simp, by simpa using hpage⟩
  | @cons src row sources rest hsrc hrest ih =>
      rw [List.length_cons] at hfits hstart hpage
      rw [dataSize_cons] at hfits
      obtain ⟨page', hcopy, hpage'⟩ := copyRow_lays hsrc (by omega) hstart hpage
      have hdone : done.length + 1 = (done ++ [row]).length := by simp
      have hsize : start + dataSize done + row.length = start + dataSize (done ++ [row]) := by
        simp [Nat.add_assoc]
      have hassoc : done ++ row :: rest = (done ++ [row]) ++ rest := by simp
      rw [List.foldlM_cons, hcopy, ok_bind, hdone, hsize, hassoc]
      exact ih (by simp at hfits ⊢; omega) (by simp at hstart ⊢; omega) hpage'

/-- **A rewrite whose rows fit leaves exactly these rows on the page.**  The
magic number is not written. -/
theorem rebuildLeaf_lays_magic {body : List UInt8} {rows : List (List UInt8)} {next prev : ℕ}
    (hpage : Lays page h body)
    (hsrc : List.Forall₂ (fun src row => src.bytes snapshot oldCount = .ok row) sources rows)
    (hfits : Fits rows) :
    ∃ page', rebuildLeaf page snapshot oldCount rows.length next prev sources = .ok page' ∧
      Lays page' { leafHeader rows next prev with magic := h.magic } (leafBody rows) := by
  have hle := hfits.le
  have hclear := ((((hpage.setFlags pageLeaf).setNumRows 0).setNextLeaf next).setPrevLeaf
    prev).clearBody
  have hempty : Lays ((((page.setFlags pageLeaf).setNumRows 0).setNextLeaf next).setPrevLeaf
      prev).clearBody ⟨h.magic, pageLeaf, 0, h.freeSpaceOffset, next, prev⟩
      (offsetArray (pageHeaderSize + rows.length * 2) [] ++
        (List.replicate (rows.length * 2) 0 ++ [].flatten)) := by
    obtain ⟨tail, htail, hdata⟩ := hclear
    refine ⟨tail, htail, ?_⟩
    rw [hdata, offsetArray, List.nil_append, List.flatten_nil, List.append_nil, pad_replicate]
    simp only [pageHeaderSize, payloadSize] at *
    omega
  obtain ⟨page', hfold, hpage'⟩ := @copyRows_lays _ snapshot oldCount sources [] rows _ _ hsrc
    (by simpa [dataSize] using hle) (by simp) hempty
  simp only [List.length_nil, dataSize_nil, List.nil_append, Nat.add_zero] at hfold hpage'
  refine ⟨_, ?_, (hpage'.setNumRows rows.length).setFreeSpaceOffset (usedSize rows)⟩
  rw [rebuildLeaf, hfold, ok_bind]
  rfl

end

/-! ## Reading a leaf -/

/-- The offset at which row `i` starts. -/
def rowStart (rows : List (List UInt8)) (i : ℕ) : ℕ :=
  pageHeaderSize + rows.length * 2 + dataSize (rows.take i)

theorem rowStart_succ {rows : List (List UInt8)} {i : ℕ} (h : i < rows.length) :
    rowStart rows (i + 1) = rowStart rows i + rows[i].length := by
  rw [rowStart, rowStart, List.take_succ_eq_append_getElem h, dataSize_append, dataSize_cons,
    dataSize_nil, Nat.add_zero, ← Nat.add_assoc]

theorem rowStart_length (rows : List (List UInt8)) : rowStart rows rows.length = usedSize rows := by
  rw [rowStart, List.take_length, usedSize]

theorem rowStart_le_usedSize (rows : List (List UInt8)) (i : ℕ) :
    rowStart rows i ≤ usedSize rows := by
  have hsplit : dataSize rows = dataSize (rows.take i) + dataSize (rows.drop i) := by
    rw [← dataSize_append, List.take_append_drop]
  rw [rowStart, usedSize]
  omega

/-- The rows before row `i`, row `i` and the rows after it, as the body lays
them out. -/
theorem leafBody_split {rows : List (List UInt8)} {i : ℕ} (h : i < rows.length) :
    leafBody rows = offsetArray (pageHeaderSize + rows.length * 2) (rows.take i) ++
      (leBytes 2 (rowStart rows i) ++
        (offsetArray (rowStart rows (i + 1)) (rows.drop (i + 1)) ++ rows.flatten)) := by
  have hrows : rows = rows.take i ++ rows[i] :: rows.drop (i + 1) := by
    rw [List.getElem_cons_drop, List.take_append_drop]
  rw [leafBody]
  conv_lhs => rw [hrows]
  rw [offsetArray_append, offsetArray, ← hrows, rowStart_succ h]
  simp only [rowStart, List.append_assoc]

theorem rowEnd_le {rows : List (List UInt8)} {i : ℕ} (hfits : Fits rows) (h : i < rows.length) :
    rowStart rows i + rows[i].length ≤ pageSize - checksumSize := by
  rw [← rowStart_succ h]
  exact (rowStart_le_usedSize rows (i + 1)).trans hfits

/-! Reading needs only the layout, not the checksum. -/

namespace Lays

variable {p : Page} {h : Header} {rows : List (List UInt8)} {i : ℕ}

theorem rowOffset (hp : Lays p h (leafBody rows)) (hused : usedSize rows ≤ pageSize)
    (hslots : rows.length * 2 ≤ payloadSize) (hi : i < rows.length) :
    p.rowOffset i = .ok (rowStart rows i) := by
  have hstart := (rowStart_le_usedSize rows i).trans hused
  have hsplit := leafBody_split hi
  have hbefore : (offsetArray (pageHeaderSize + rows.length * 2) (rows.take i)).length = i * 2 := by
    rw [length_offsetArray, List.length_take, Nat.min_eq_left hi.le]
  have hend : pageHeaderSize + i * 2 + 2 ≤ pageSize := by
    simp only [pageHeaderSize, payloadSize, pageSize] at *
    omega
  rw [Page.rowOffset, readU16_ok (by rw [Page.size]; exact hend), readLe,
    hp.slice_window (Nat.le_add_right _ _) (by simp only [pageHeaderSize] at *; omega)]
  rw [slice_pad_of_le (by omega) (by rw [length_leafBody]; omega),
    slice_eq_of_append hsplit (by omega) (by rw [length_leBytes]; omega),
    leNat_leBytes_of_lt (by simp only [pageSize] at hstart; omega)]

/-- A row ends where the next one starts, the last one at the free space offset. -/
theorem rowBounds (hp : Lays p h (leafBody rows)) (hused : usedSize rows ≤ pageSize)
    (hslots : rows.length * 2 ≤ payloadSize) (hfree : h.freeSpaceOffset = usedSize rows)
    (hi : i < rows.length) : BoogyDb.rowBounds p i rows.length =
      .ok (rowStart rows i, rowStart rows i + rows[i].length) := by
  rw [BoogyDb.rowBounds, hp.rowOffset hused hslots hi, ok_bind, ← rowStart_succ hi]
  by_cases hlast : i + 1 < rows.length
  · rw [if_pos hlast, hp.rowOffset hused hslots hlast]
    rfl
  · have hend : i + 1 = rows.length := by omega
    have hoff : p.freeSpaceOffset = usedSize rows := by
      rw [hp.freeSpaceOffset, hfree]
      exact Nat.mod_eq_of_lt (hused.trans_lt (by decide))
    rw [if_neg hlast, hoff, ← rowStart_length, hend]
    rfl

theorem slice_row (hp : Lays p h (leafBody rows)) (hfits : Fits rows) (hi : i < rows.length) :
    slice p.data (rowStart rows i) (rowStart rows i + rows[i].length) = rows[i] := by
  have hbody := hfits.length_leafBody_le
  have hlen := length_leafBody rows
  have hrows : rows = rows.take i ++ rows[i] :: rows.drop (i + 1) := by
    rw [List.getElem_cons_drop, List.take_append_drop]
  have hsplit : leafBody rows =
      (offsetArray (pageHeaderSize + rows.length * 2) rows ++ (rows.take i).flatten) ++
        (rows[i] ++ (rows.drop (i + 1)).flatten) := by
    have hflat : rows.flatten = (rows.take i).flatten ++
        (rows[i] ++ (rows.drop (i + 1)).flatten) := by
      conv_lhs => rw [hrows]
      rw [List.flatten_append, List.flatten_cons]
    rw [leafBody, hflat, List.append_assoc]
  have hpre : (offsetArray (pageHeaderSize + rows.length * 2) rows ++
      (rows.take i).flatten).length = rowStart rows i - pageHeaderSize := by
    rw [List.length_append, length_offsetArray, length_flatten, rowStart, Nat.add_assoc,
      Nat.add_sub_cancel_left]
  have hstart : pageHeaderSize ≤ rowStart rows i := by
    rw [rowStart, Nat.add_assoc]
    exact Nat.le_add_right _ _
  have husize := rowStart_le_usedSize rows (i + 1)
  rw [rowStart_succ hi, usedSize, Nat.add_assoc pageHeaderSize, ← hlen] at husize
  rw [hp.slice_payload hstart husize hbody]
  refine slice_eq_of_append hsplit hpre.symm ?_
  rw [hpre]
  omega

end Lays

section

variable [Crc32Fast] {rows : List (List UInt8)} {next prev i : ℕ}

theorem leafPage_lays : Lays (leafPage rows next prev) (leafHeader rows next prev)
    (leafBody rows) := Lays.pageOf

theorem newLeaf_eq_leafPage : Page.newLeaf = leafPage [] 0 0 := newLeaf_eq

@[simp] theorem isLeaf_leafPage : (leafPage rows next prev).isLeaf = true := by
  have hflags : (leafPage rows next prev).flags = 1 := leafPage_lays.flags
  rw [Page.isLeaf, hflags]
  rfl

theorem numRows_leafPage (h : Fits rows) : (leafPage rows next prev).numRows = rows.length := by
  rw [leafPage_lays.numRows]
  exact Nat.mod_eq_of_lt h.length_lt

theorem freeSpaceOffset_leafPage (h : Fits rows) :
    (leafPage rows next prev).freeSpaceOffset = usedSize rows := by
  rw [leafPage_lays.freeSpaceOffset]
  have hlt : usedSize rows < 65536 := h.trans_lt (by decide)
  exact Nat.mod_eq_of_lt hlt

theorem nextLeaf_leafPage (h : next < 2 ^ 32) : (leafPage rows next prev).nextLeaf = next := by
  rw [leafPage_lays.nextLeaf]
  exact Nat.mod_eq_of_lt h

theorem prevLeaf_leafPage (h : prev < 2 ^ 32) : (leafPage rows next prev).prevLeaf = prev := by
  rw [leafPage_lays.prevLeaf]
  exact Nat.mod_eq_of_lt h

/-- The offsets of a leaf, whether or not its rows end before the checksum. -/
theorem rowOffset_image (hused : usedSize rows ≤ pageSize) (hslots : rows.length * 2 ≤ payloadSize)
    {i : ℕ} (hi : i < rows.length) :
    (leafPage rows next prev).rowOffset i = .ok (rowStart rows i) :=
  leafPage_lays.rowOffset hused hslots hi

theorem rowBounds_image (hused : usedSize rows ≤ pageSize) (hslots : rows.length * 2 ≤ payloadSize)
    {i : ℕ} (hi : i < rows.length) : rowBounds (leafPage rows next prev) i rows.length =
      .ok (rowStart rows i, rowStart rows i + rows[i].length) :=
  leafPage_lays.rowBounds hused hslots rfl hi

omit [Crc32Fast] in
theorem Fits.image (hfits : Fits rows) :
    usedSize rows ≤ pageSize ∧ rows.length * 2 ≤ payloadSize := by
  have hle := hfits.le
  refine ⟨hfits.trans (Nat.sub_le _ _), ?_⟩
  simp only [pageHeaderSize, payloadSize] at *
  omega

theorem rowBounds_leafPage (hfits : Fits rows) (h : i < rows.length) :
    rowBounds (leafPage rows next prev) i rows.length =
      .ok (rowStart rows i, rowStart rows i + rows[i].length) :=
  rowBounds_image hfits.image.1 hfits.image.2 h

/-- Row `i` of a leaf page. -/
theorem slice_leafPage (hfits : Fits rows) (h : i < rows.length) :
    slice (leafPage rows next prev).data (rowStart rows i) (rowStart rows i + rows[i].length) =
      rows[i] := leafPage_lays.slice_row hfits h

theorem rowSlice_leafPage (hfits : Fits rows) (h : i < rows.length) :
    rowSlice (leafPage rows next prev) i rows.length = .ok rows[i] := by
  have hend := rowEnd_le hfits h
  rw [rowSlice, rowBounds_leafPage hfits h, ok_bind]
  dsimp only
  rw [bytesOf_ok (Nat.le_add_right _ _) (by rw [Page.size]; exact hend.trans (Nat.sub_le _ _)),
    slice_leafPage hfits h]

theorem kept_leafPage (hfits : Fits rows) (h : i < rows.length) :
    (RowSource.kept i).bytes (leafPage rows next prev) rows.length = .ok rows[i] := by
  have hend := rowEnd_le hfits h
  rw [RowSource.bytes, rowBounds_leafPage hfits h, ok_bind]
  dsimp only
  rw [if_neg (by omega),
    bytesOf_ok (Nat.le_add_right _ _) (by rw [Page.size]; exact hend.trans (Nat.sub_le _ _)),
    slice_leafPage hfits h]

end

end BoogyDb
