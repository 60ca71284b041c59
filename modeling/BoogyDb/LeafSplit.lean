import BoogyDb.BTreeLeaf
import BoogyDb.Lib.FencedLeaves
import BoogyDb.OverflowChain
import BoogyDb.TreeShape

/-!
# When a leaf split is safe

A full leaf of the table tree is split at half its row count, whatever the rows
weigh.  The half without the new row always fits.  The half with it fits exactly
when the new row is no longer than what the leaf has free together with what the
rows weigh that move to the other half (`SplitRoom`); nothing in the code checks
this.  An overflow cell fills a page, so it fits only at one of the ends of a
leaf.

The tree invariant is the one of `TreeShape`: nothing is asked of the rows of a
tree here, and a call that returned an error may have left half its work.
-/

namespace BoogyDb

open Bytes Wp WriteGuard
open FencedTree (insertIdx_eq_take_drop)

/-! ## Room in a leaf -/

section

variable {rows : List (List UInt8)} {row : List UInt8} {next prev pos mid : ℕ}

theorem usedSize_insertIdx (hpos : pos ≤ rows.length) :
    usedSize (rows.insertIdx pos row) = usedSize rows + 2 + row.length := by
  have hlen : (rows.insertIdx pos row).length = rows.length + 1 :=
    List.length_insertIdx_of_le_length hpos row
  have hdata : dataSize (rows.insertIdx pos row) = dataSize rows + row.length := by
    have hperm := (List.perm_insertIdx row rows hpos).map List.length
    rw [dataSize, hperm.sum_eq, List.map_cons, List.sum_cons, dataSize, Nat.add_comm]
  rw [usedSize, usedSize, hlen, hdata]
  omega

theorem existingDataSize_leafPage [Crc32Fast] (hfits : Fits rows) :
    existingDataSize (leafPage rows next prev) = dataSize rows := by
  rw [existingDataSize, numRows_leafPage hfits, freeSpaceOffset_leafPage hfits, usedSize]
  split <;> omega

/-- A leaf has room for one more row when the code says so. -/
theorem neededSize_leafPage [Crc32Fast] (hfits : Fits rows) (hpos : pos ≤ rows.length) :
    neededSize (leafPage rows next prev) row.length ≤ pageSize ↔
      Fits (rows.insertIdx pos row) := by
  rw [neededSize, numRows_leafPage hfits, existingDataSize_leafPage hfits, Fits,
    usedSize_insertIdx hpos, usedSize]
  simp only [pageSize, checksumSize]
  omega

/-- The half the new row does not go to. -/
theorem rightHalf_of_lt (hpos : pos ≤ rows.length) (h : pos < mid) :
    rightHalf rows pos row mid = rows.drop (mid - 1) := by
  obtain ⟨k, rfl⟩ := Nat.exists_eq_add_of_lt h
  have hlen : (rows.take pos).length = pos := by rw [List.length_take, Nat.min_eq_left hpos]
  rw [rightHalf, insertIdx_eq_take_drop hpos, Nat.add_sub_cancel, Nat.add_assoc,
    List.drop_append, List.drop_eq_nil_of_le (by omega), hlen, Nat.add_sub_cancel_left,
    List.nil_append, List.drop_succ_cons, List.drop_drop]

theorem leftHalf_of_le (hpos : pos ≤ rows.length) (h : mid ≤ pos) :
    leftHalf rows pos row mid = rows.take mid := by
  have hlen : (rows.take pos).length = pos := by rw [List.length_take, Nat.min_eq_left hpos]
  rw [leftHalf, insertIdx_eq_take_drop hpos, List.take_append_of_le_length (by omega),
    List.take_take, Nat.min_eq_left h]

theorem usedSize_append (rows rows' : List (List UInt8)) :
    usedSize (rows ++ rows') + pageHeaderSize = usedSize rows + usedSize rows' := by
  rw [usedSize, usedSize, usedSize, List.length_append, dataSize_append]
  omega

theorem usedSize_halves (hpos : pos ≤ rows.length) :
    usedSize (leftHalf rows pos row mid) + usedSize (rightHalf rows pos row mid) =
      usedSize rows + 2 + row.length + pageHeaderSize := by
  rw [leftHalf, rightHalf, ← usedSize_append, List.take_append_drop, usedSize_insertIdx hpos]

end

/-! ## The condition -/

/-- The bytes of a leaf that no row, offset or header takes. -/
def freeBytes (page : Page) : ℕ := pageSize - checksumSize - page.freeSpaceOffset

/-- What rows `[start, stop)` of a leaf weigh, with their offsets. -/
def weight (page : Page) (start stop : ℕ) : Result ℕ := do
  let sizes ← (List.range' start (stop - start)).mapM fun i =>
    (RowSource.kept i).size page page.numRows
  pure ((stop - start) * 2 + sizes.sum)

/-- The rows that a split at half the row count moves to the half without the new
row, as a window of the old rows. -/
def movedAway (page : Page) (pos : ℕ) : ℕ × ℕ :=
  let mid := (page.numRows + 1) / 2
  if pos < mid then (mid - 1, page.numRows) else (0, mid)

/-- Once those rows are gone, the new one fits in what is free. -/
def SplitRoom (page : Page) (pos len : ℕ) : Prop :=
  ∃ moved, weight page (movedAway page pos).1 (movedAway page pos).2 = .ok moved ∧
    len + 2 ≤ freeBytes page + moved

/-- The bytes that positions `[start, stop)` of the rows with a new one take on a
page of their own. -/
def rangeSize (page : Page) (pos : ℕ) (row : List UInt8) (start stop : ℕ) : Result ℕ := do
  let sizes ← (List.range' start (stop - start)).mapM fun i =>
    (virtualSource pos row i).size page page.numRows
  pure (pageHeaderSize + (stop - start) * 2 + sizes.sum)

/-- They stay clear of the checksum. -/
def RangeFits (page : Page) (pos : ℕ) (row : List UInt8) (start stop : ℕ) : Prop :=
  ∃ size, rangeSize page pos row start stop = .ok size ∧ size ≤ pageSize - checksumSize

/-- Both halves of a split at half the row count. -/
def HalvesFit (page : Page) (pos : ℕ) (row : List UInt8) : Prop :=
  RangeFits page pos row 0 ((page.numRows + 1) / 2) ∧
    RangeFits page pos row ((page.numRows + 1) / 2) (page.numRows + 1)

section

variable [Crc32Fast] {rows : List (List UInt8)} {row : List UInt8} {next prev pos : ℕ}

theorem weight_leafPage (hfits : Fits rows) {start stop : ℕ} (hstop : stop ≤ rows.length) :
    weight (leafPage rows next prev) start stop =
      .ok (usedSize ((rows.take stop).drop start) - pageHeaderSize) := by
  have hlen : ((rows.take stop).drop start).length = stop - start := by
    rw [List.length_drop, List.length_take, Nat.min_eq_left hstop]
  -- the window as one of the rows with an empty row behind them
  have hsizes := @sizes_range _ rows next prev start stop rows.length [] hfits le_rfl (by omega)
  have hvirtual : ∀ i ∈ List.range' start (stop - start),
      virtualSource rows.length [] i = .kept i := by
    intro i hi
    have := List.mem_range'_1.mp hi
    rw [virtualSource, if_neg (by omega), if_pos (by omega)]
  rw [insertIdx_eq_take_drop le_rfl, List.take_length,
    List.take_append_of_le_length hstop] at hsizes
  have hkept := @Except.mapM_congr _ _ _ (fun i => (virtualSource rows.length [] i).size
      (leafPage rows next prev) rows.length) (fun i => (RowSource.kept i).size
      (leafPage rows next prev) rows.length) _ fun i hi => by rw [hvirtual i hi]
  rw [hsizes] at hkept
  rw [weight, numRows_leafPage hfits, ← hkept, ok_bind, pure_eq_ok, usedSize, hlen, dataSize,
    Nat.add_assoc, Nat.add_sub_cancel_left]

theorem rangeSize_leafPage (hfits : Fits rows) (hpos : pos ≤ rows.length) {start stop : ℕ}
    (hstop : stop ≤ rows.length + 1) :
    rangeSize (leafPage rows next prev) pos row start stop =
      .ok (usedSize (((rows.insertIdx pos row).take stop).drop start)) := by
  have hlen : (((rows.insertIdx pos row).take stop).drop start).length = stop - start := by
    rw [List.length_drop, List.length_take, List.length_insertIdx_of_le_length hpos,
      Nat.min_eq_left hstop]
  rw [rangeSize, numRows_leafPage hfits, sizes_range hfits hpos hstop, ok_bind, pure_eq_ok,
    usedSize, hlen, dataSize]

theorem halvesFit_leafPage (hfits : Fits rows) (hpos : pos ≤ rows.length) :
    HalvesFit (leafPage rows next prev) pos row ↔
      Fits (leftHalf rows pos row ((rows.length + 1) / 2)) ∧
        Fits (rightHalf rows pos row ((rows.length + 1) / 2)) := by
  have hwhole : ((rows.insertIdx pos row).take (rows.length + 1)) = rows.insertIdx pos row := by
    rw [← List.length_insertIdx_of_le_length hpos row, List.take_length]
  rw [HalvesFit, RangeFits, RangeFits, numRows_leafPage hfits,
    rangeSize_leafPage hfits hpos (by omega), rangeSize_leafPage hfits hpos le_rfl, hwhole,
    List.drop_zero]
  simp only [Except.ok.injEq, exists_eq_left', Fits, leftHalf, rightHalf]

/-- **There is room for a split exactly when both halves fit.** -/
theorem splitRoom_leafPage (hfits : Fits rows) (hpos : pos ≤ rows.length) :
    SplitRoom (leafPage rows next prev) pos row.length ↔
      Fits (leftHalf rows pos row ((rows.length + 1) / 2)) ∧
        Fits (rightHalf rows pos row ((rows.length + 1) / 2)) := by
  have hsum := @usedSize_halves rows row pos ((rows.length + 1) / 2) hpos
  have hfree : freeBytes (leafPage rows next prev) = pageSize - checksumSize - usedSize rows := by
    rw [freeBytes, freeSpaceOffset_leafPage hfits]
  have hle : usedSize rows ≤ pageSize - checksumSize := hfits
  set mid := (rows.length + 1) / 2 with hmid
  rw [SplitRoom, movedAway, numRows_leafPage hfits, hfree, ← hmid]
  by_cases hlt : pos < mid
  · have hright := @rightHalf_of_lt rows row pos mid hpos hlt
    have hfitsr : Fits (rightHalf rows pos row mid) := by
      rw [hright]
      exact hfits.sublist (List.drop_sublist _ _)
    have hhead : pageHeaderSize ≤ usedSize (rows.drop (mid - 1)) := by
      rw [usedSize, Nat.add_assoc]
      exact Nat.le_add_right _ _
    rw [if_pos hlt, weight_leafPage hfits le_rfl, List.take_length]
    rw [hright] at hsum
    simp only [Except.ok.injEq, exists_eq_left', Fits] at *
    omega
  · have hleft := @leftHalf_of_le rows row pos mid hpos (by omega)
    have hfitsl : Fits (leftHalf rows pos row mid) := by
      rw [hleft]
      exact hfits.sublist (List.take_sublist _ _)
    have hhead : pageHeaderSize ≤ usedSize (rows.take mid) := by
      rw [usedSize, Nat.add_assoc]
      exact Nat.le_add_right _ _
    rw [if_neg hlt, weight_leafPage hfits (by omega), List.drop_zero]
    rw [hleft] at hsum
    simp only [Except.ok.injEq, exists_eq_left', Fits] at *
    omega

/-! ## Splitting for an overflow cell -/

omit [Crc32Fast] in
theorem leafFitsPage_sizes (rows : List (List UInt8)) :
    leafFitsPage rows.length (rows.map List.length).sum = true ↔ Fits rows := by
  rw [leafFitsPage, decide_eq_true_eq, Fits, usedSize, dataSize]
  simp only [pageSize, checksumSize]
  omega

omit [Crc32Fast] in
/-- The first pass takes candidates as long as the left half fits. -/
theorem growLeftHalf_eq {sizes : List ℕ} {stop k : ℕ} (mid : ℕ) {best : ℕ} (hpos : 0 < mid)
    (hmid : mid ≤ stop) (hstop : stop < mid + k) (hlen : mid + k ≤ sizes.length + 1)
    (hfit : ∀ m, m ≤ stop → leafFitsPage m (sizes.take m).sum = true)
    (hover : stop + 1 < mid + k → leafFitsPage (stop + 1) (sizes.take (stop + 1)).sum = false) :
    growLeftHalf sizes (List.range' mid k) (sizes.take (mid - 1)).sum best = stop := by
  have hsum : ∀ m, 0 < m → m ≤ sizes.length →
      (sizes.take (m - 1)).sum + sizes.getD (m - 1) 0 = (sizes.take m).sum := by
    intro m hm hle
    obtain ⟨m, rfl⟩ := Nat.exists_eq_add_of_lt hm
    rw [Nat.zero_add] at hle ⊢
    rw [Nat.add_sub_cancel, List.take_succ_eq_append_getElem (by omega), List.sum_append,
      List.sum_singleton, List.getD_eq_getElem?_getD, List.getElem?_eq_getElem, Option.getD_some]
  induction k generalizing mid best with
  | zero => omega
  | succ k ih =>
      rw [List.range'_succ, growLeftHalf, hsum mid hpos (by omega), if_pos (hfit mid hmid)]
      rcases Nat.lt_or_eq_of_le hmid with hlt | heq
      · have hnext := @ih (mid + 1) mid (Nat.succ_pos _) hlt (by omega) (by omega)
          (fun h => hover (by omega))
        rwa [Nat.add_sub_cancel] at hnext
      · -- the next candidate is too long, or there is none
        subst heq
        cases k with
        | zero => rfl
        | succ k =>
            have hnext := hsum (mid + 1) (Nat.succ_pos _) (by omega)
            rw [Nat.add_sub_cancel] at hnext
            rw [List.range'_succ, growLeftHalf, Nat.add_sub_cancel, hnext, hover (by omega)]
            rfl

omit [Crc32Fast] in
/-- Nothing fits beside an overflow cell. -/
theorem not_fits_beside {part : List (List UInt8)} {cell : List UInt8}
    (hcell : cell.length = maxSingleRow) (hmem : cell ∈ part) (hlt : 1 < part.length) :
    ¬ Fits part := by
  intro hfit
  have hsub := (List.singleton_sublist.mpr hmem).map List.length
  have hdata : cell.length ≤ dataSize part := by
    have := hsub.sum_le_sum fun _ _ => Nat.zero_le _
    simpa [dataSize] using this
  have := hfit.le
  rw [hcell] at hdata
  simp only [maxSingleRow, pageSize, pageHeaderSize, checksumSize] at *
  omega

/-- An overflow cell at one of the ends of a leaf gets a page of its own. -/
theorem findOverflowSplitPoint_edge {cell : List UInt8} (hfits : Fits rows) (hne : rows ≠ [])
    (hcell : cell.length = maxSingleRow) (hpos : pos = 0 ∨ pos = rows.length) :
    ∃ mid, findOverflowSplitPoint (leafPage rows next prev) rows.length pos cell
        (rows.length + 1) = .ok mid ∧ 0 < mid ∧ mid ≤ rows.length ∧
      Fits (leftHalf rows pos cell mid) ∧ Fits (rightHalf rows pos cell mid) := by
  have hlen := List.length_pos_iff.mpr hne
  have hle : pos ≤ rows.length := by omega
  set all := rows.insertIdx pos cell with hall
  have halllen : all.length = rows.length + 1 := List.length_insertIdx_of_le_length hle cell
  -- the cell alone fits, and nothing fits beside it
  have hone : Fits [cell] := by
    rw [Fits, usedSize, dataSize_cons, hcell, List.length_singleton, dataSize_nil]
    decide
  have hsizes := @sizes_range _ rows next prev 0 (rows.length + 1) pos cell hfits hle le_rfl
  rw [List.drop_zero, ← hall, ← halllen, List.take_length, Nat.sub_zero,
    ← List.range_eq_range'] at hsizes
  have hstarts : ∀ m, m ≤ all.length →
      (leafFitsPage m ((all.map List.length).take m).sum = true ↔ Fits (all.take m)) := by
    intro m hm
    have hm' : (all.take m).length = m := by rw [List.length_take, Nat.min_eq_left hm]
    rw [← leafFitsPage_sizes, hm', List.map_take]
  have hsuffix : ∀ m, m ≤ all.length →
      (leafFitsPage (all.length - m) ((all.map List.length).drop m).sum = true ↔
        Fits (all.drop m)) := by
    intro m _
    rw [← leafFitsPage_sizes, List.length_drop, List.map_drop]
  obtain ⟨mid, hmid, hpos', hleft, hright, hnext⟩ : ∃ mid, mid ≤ rows.length ∧ 0 < mid ∧
      Fits (all.take mid) ∧ Fits (all.drop mid) ∧
      (mid + 1 < 1 + rows.length → ¬ Fits (all.take (mid + 1))) := by
    rcases hpos with rfl | rfl
    · have hcons : all = cell :: rows := by rw [hall, insertIdx_eq_take_drop hle]; rfl
      refine ⟨1, hlen, Nat.one_pos, by rw [hcons]; exact hone, by rw [hcons]; exact hfits, ?_⟩
      intro hlt
      refine not_fits_beside hcell (by rw [hcons]; exact List.mem_cons_self) ?_
      rw [List.length_take]
      omega
    · have happend : all = rows ++ [cell] := by
        rw [hall, insertIdx_eq_take_drop le_rfl, List.take_length, List.drop_length]
      refine ⟨rows.length, le_rfl, hlen, ?_, ?_, fun hlt => by omega⟩
      · rw [happend, List.take_left']
        · exact hfits
        · rfl
      · rw [happend, List.drop_left']
        · exact hone
        · rfl
  refine ⟨mid, ?_, hpos', hmid, hleft, hright⟩
  have hgrow := @growLeftHalf_eq (all.map List.length) mid rows.length 1 1 Nat.one_pos hpos'
    (by omega) (by rw [List.length_map]; omega)
    (fun m hm => (hstarts m (by omega)).mpr (hleft.sublist (List.take_sublist_take_left hm)))
    (fun hlt => Bool.eq_false_iff.mpr fun h =>
      hnext hlt ((hstarts (mid + 1) (by omega)).mp h))
  rw [findOverflowSplitPoint, ← halllen, hsizes, ok_bind]
  dsimp only
  rw [halllen, Nat.add_sub_cancel, show (0 : ℕ) = ((all.map List.length).take (1 - 1)).sum from rfl,
    hgrow, ← halllen, if_pos ((hsuffix mid (by omega)).mpr hright), pure_eq_ok]

end

end BoogyDb
