import BoogyDb.RowRuns
import BoogyDb.SplitSafety

/-!
# Splits for overflow rows

The cell of an overflow row fills a leaf by itself.  A leaf that takes one is split in
two, so the cell gets a page of its own exactly when it comes before or behind all rows
that are there (`overflowHalvesFit_leafPage`): in between, each of its two neighbours would
have to be on a page without it.  `findOverflowSplitPoint` finds the
split when there is one, and takes half the row count otherwise.
-/

namespace BoogyDb

open Bytes Wp WriteGuard BTreeWriter

/-- The cell of an overflow row whose first overflow page is `firstPage`. -/
def overflowCell (row : List UInt8) (firstPage : ℕ) : List UInt8 :=
  appendOverflowTrailer (row.take inlineDataLen) firstPage (row.length - inlineDataLen)

/-- The leaf is split for the cell where `findOverflowSplitPoint` says, and both halves
stay clear of the checksum. -/
def OverflowHalvesFit (page : Page) (pos : ℕ) (cell : List UInt8) : Prop :=
  ∀ mid, findOverflowSplitPoint page page.numRows pos cell (page.numRows + 1) = .ok mid →
    RangeFits page pos cell 0 mid ∧ RangeFits page pos cell mid (page.numRows + 1)

/-- An insertion of a row that needs overflow pages is safe: it does not panic, and when
the leaf it reaches is split, both halves stay clear of the checksum. -/
def OverflowInsertSafe [Crc32Fast] (g : WriteGuard) (root : ℕ) (rowid : UInt64)
    (row : List UInt8) : Prop :=
  ¬ Panics (BTreeWriter.insert root rowid row) g ∧
    ∀ pageNo page pos, reachedLeaf g root rowid = .ok (pageNo, page) →
      findInsertionPoint page rowid = .ok (pos, false) → ∀ firstPage,
        pageSize < neededSize page (overflowCell row firstPage).length →
          OverflowHalvesFit page pos (overflowCell row firstPage)

/-! ## The split point -/

section

variable {sizes mids : List ℕ} {total dataSum best mid : ℕ}

theorem growLeftHalf_mem : growLeftHalf sizes mids dataSum best = best ∨
    growLeftHalf sizes mids dataSum best ∈ mids := by
  induction mids generalizing dataSum best with
  | nil => exact Or.inl rfl
  | cons m mids ih =>
      unfold growLeftHalf
      dsimp only
      split
      · right
        rcases ih with h | h
        · rw [h]
          exact List.mem_cons_self
        · exact List.mem_cons_of_mem _ h
      · exact Or.inl rfl

theorem firstFittingSplit_mem (h : firstFittingSplit sizes total mids dataSum = some mid) :
    mid ∈ mids := by
  induction mids generalizing dataSum with
  | nil => cases h
  | cons m mids ih =>
      unfold firstFittingSplit at h
      split at h
      · cases h
        exact List.mem_cons_self
      · exact List.mem_cons_of_mem _ (ih h)

/-- A split point is a position of the rows. -/
theorem findOverflowSplitPoint_le {page : Page} {oldCount pos : ℕ} {row : List UInt8}
    (htotal : 0 < total)
    (h : findOverflowSplitPoint page oldCount pos row total = .ok mid) : mid ≤ total := by
  have hmids : ∀ m ∈ List.range' 1 (total - 1), m ≤ total := by
    intro m hm
    have := List.mem_range'_1.mp hm
    omega
  unfold findOverflowSplitPoint at h
  obtain ⟨sizes, -, h⟩ := bind_eq_ok.mp h
  dsimp only at h
  split at h
  · cases h
    have hmem : growLeftHalf sizes (List.range' 1 (total - 1)) 0 1 = 1 ∨
        growLeftHalf sizes (List.range' 1 (total - 1)) 0 1 ∈ List.range' 1 (total - 1) :=
      growLeftHalf_mem
    rcases hmem with hbest | hbest
    · rw [hbest]
      exact htotal
    · exact hmids _ hbest
  · cases h
    cases hfirst : firstFittingSplit sizes total (List.range' 1 (total - 1)) (sizes.getD 0 0) with
    | none => exact Nat.div_le_self _ _
    | some m => exact hmids m (firstFittingSplit_mem hfirst)

end

/-! ## A leaf and a cell -/

section

variable [Crc32Fast] {rows : List (List UInt8)} {cell row : List UInt8} {next prev pos : ℕ}

omit [Crc32Fast] in
theorem length_overflowCell (firstPage : ℕ) (hlong : maxSingleRow < row.length) :
    (overflowCell row firstPage).length = maxSingleRow := by
  have hle : inlineDataLen ≤ row.length := (Nat.sub_le _ _).trans hlong.le
  rw [overflowCell, appendOverflowTrailer, List.length_append, List.length_append,
    List.length_append, length_leBytes, length_leBytes, List.length_take, Nat.min_eq_left hle]
  rfl

/-- A leaf with rows is split for a cell. -/
theorem needsSplit_cell (hfits : Fits rows) (hcell : cell.length = maxSingleRow) :
    pageSize < neededSize (leafPage rows next prev) cell.length ↔ rows ≠ [] := by
  rw [neededSize, numRows_leafPage hfits, existingDataSize_leafPage hfits, hcell]
  constructor
  · rintro hsize rfl
    revert hsize
    decide
  · intro hne
    have hlen := List.length_pos_iff.mpr hne
    simp only [maxSingleRow, pageSize, pageHeaderSize, checksumSize]
    omega

/-- **The halves of a leaf that is split for a cell fit exactly when the cell is at one of
its ends.** -/
theorem overflowHalvesFit_leafPage (hfits : Fits rows) (hne : rows ≠ [])
    (hcell : cell.length = maxSingleRow) (hpos : pos ≤ rows.length) :
    OverflowHalvesFit (leafPage rows next prev) pos cell ↔ pos = 0 ∨ pos = rows.length := by
  have hwhole : ((rows.insertIdx pos cell).take (rows.length + 1)) = rows.insertIdx pos cell := by
    rw [← List.length_insertIdx_of_le_length hpos cell, List.take_length]
  have hhalves : ∀ mid ≤ rows.length + 1,
      (RangeFits (leafPage rows next prev) pos cell 0 mid ∧
          RangeFits (leafPage rows next prev) pos cell mid (rows.length + 1)) ↔
        Fits (leftHalf rows pos cell mid) ∧ Fits (rightHalf rows pos cell mid) := by
    intro mid hmid
    rw [RangeFits, RangeFits, rangeSize_leafPage hfits hpos hmid,
      rangeSize_leafPage hfits hpos le_rfl, hwhole, List.drop_zero]
    simp only [Except.ok.injEq, exists_eq_left', Fits, leftHalf, rightHalf]
  unfold OverflowHalvesFit
  rw [numRows_leafPage hfits]
  constructor
  · intro h
    by_contra hinterior
    obtain ⟨hpos0, hposlt⟩ : 0 < pos ∧ pos < rows.length := by omega
    have hsizes := @sizes_range _ rows next prev 0 (rows.length + 1) pos cell hfits hpos le_rfl
    rw [Nat.sub_zero, ← List.range_eq_range'] at hsizes
    obtain ⟨mid, hmid⟩ : ∃ mid, findOverflowSplitPoint (leafPage rows next prev) rows.length pos
        cell (rows.length + 1) = .ok mid := by
      unfold findOverflowSplitPoint
      rw [hsizes, ok_bind]
      dsimp only
      split
      · exact ⟨_, rfl⟩
      · exact ⟨_, rfl⟩
    have hle := findOverflowSplitPoint_le (Nat.succ_pos _) hmid
    obtain ⟨hleft, hright⟩ := (hhalves mid hle).mp (h mid hmid)
    have hlen : (rows.insertIdx pos cell).length = rows.length + 1 :=
      List.length_insertIdx_of_le_length hpos cell
    have hget : (rows.insertIdx pos cell)[pos]? = some cell := by
      rw [List.getElem?_insertIdx_self, if_pos hpos]
    rcases Nat.lt_or_ge pos mid with hlt | hge
    · -- the row in front of the cell is in the left half with it
      refine not_fits_beside hcell ?_ ?_ hleft
      · rw [leftHalf, List.mem_iff_getElem?]
        exact ⟨pos, by rw [List.getElem?_take_of_lt hlt, hget]⟩
      · rw [leftHalf, List.length_take]
        omega
    · -- the row behind the cell is in the right half with it
      refine not_fits_beside hcell ?_ ?_ hright
      · rw [rightHalf, List.mem_iff_getElem?]
        exact ⟨pos - mid, by rw [List.getElem?_drop, Nat.add_sub_cancel' hge, hget]⟩
      · rw [rightHalf, List.length_drop]
        omega
  · intro hedge mid hmid
    obtain ⟨mid', hmid', -, hle, hleft, hright⟩ :=
      @findOverflowSplitPoint_edge _ rows next prev pos cell hfits hne hcell hedge
    rw [hmid'] at hmid
    obtain rfl := Except.ok.inj hmid
    exact (hhalves mid' (by omega)).mpr ⟨hleft, hright⟩

end

/-! ## Runs -/

section

variable [Crc32Fast]

/-- Insertions of rows that need overflow pages are safe, after any run. -/
def OverflowSplitsAlwaysSafe : Prop :=
  ∀ (g₀ g : WriteGuard) (root : ℕ) (rowid : UInt64) (row : List UInt8),
    Reached (fun _ _ _ _ => True) g₀ root g → maxSingleRow < row.length →
      OverflowInsertSafe g root rowid row

/-- **Overflow splits.**  In every run whose insertions find room, the insertion of a row
of more than 4074 bytes is safe exactly when the leaf it reaches has no rows, or has all
of its rows on one side of the new one. -/
theorem overflow_insert_safe_iff {g₀ g : WriteGuard} {root : ℕ} (h : Reached InsertRoom g₀ root g)
    (rowid : UInt64) {row : List UInt8} (hlong : maxSingleRow < row.length) :
    OverflowInsertSafe g root rowid row ↔
      ∀ pageNo page pos, reachedLeaf g root rowid = .ok (pageNo, page) →
        findInsertionPoint page rowid = .ok (pos, false) → pos = 0 ∨ pos = page.numRows := by
  have ht := h.treeAt
  -- the leaf that is reached, and what the cell needs of it
  have hleaf : ∀ pageNo page pos, reachedLeaf g root rowid = .ok (pageNo, page) →
      findInsertionPoint page rowid = .ok (pos, false) →
        ((∀ firstPage, pageSize < neededSize page (overflowCell row firstPage).length →
            OverflowHalvesFit page pos (overflowCell row firstPage)) ↔
          pos = 0 ∨ pos = page.numRows) ∧ pageSize < neededSize page row.length := by
    intro pageNo page pos hreached hfind
    obtain ⟨height, k, hI, hroot⟩ := ht
    rcases @descend_shaped _ _ rowBranch height g root k
      "B+ tree depth exceeds maximum in insert_recursive" (routeKey rowBranch rowid) maxTreeDepth
      hI hroot (fun children keys hfits => ⟨_, List.getElem_mem _,
        routeKey_branchPage hfits rowid⟩) with ⟨leaf, page', hok, hleaf₀, hview⟩ | ⟨e, he⟩
    · obtain ⟨rfl, rfl⟩ := Prod.mk.inj (Except.ok.inj (hok.symm.trans hreached))
      obtain ⟨rows, next, prev, hview', hfits, -⟩ := hI.leaf hleaf₀
      obtain rfl : page' = leafPage rows next prev := Except.ok.inj (hview.symm.trans hview')
      have hpos := (findInsertionPoint_bounds hfits hfind).1
      have hcell : ∀ firstPage, (overflowCell row firstPage).length = maxSingleRow :=
        fun firstPage => length_overflowCell firstPage hlong
      refine ⟨?_, ?_⟩
      · rw [numRows_leafPage hfits]
        constructor
        · intro hsafe
          by_cases hne : rows = []
          · subst hne
            exact Or.inl (Nat.le_zero.mp hpos)
          · exact (overflowHalvesFit_leafPage hfits hne (hcell 0) hpos).mp
              (hsafe 0 ((needsSplit_cell hfits (hcell 0)).mpr hne))
        · intro hedge firstPage hsize
          exact (overflowHalvesFit_leafPage hfits
            ((needsSplit_cell hfits (hcell firstPage)).mp hsize) (hcell firstPage) hpos).mpr hedge
      · rw [neededSize]
        simp only [maxSingleRow, pageSize, pageHeaderSize, checksumSize] at hlong ⊢
        omega
    · rw [reachedLeaf, he] at hreached
      cases hreached
  constructor
  · rintro ⟨-, hhalves⟩ pageNo page pos hreached hfind
    exact (hleaf pageNo page pos hreached hfind).1.mp (hhalves pageNo page pos hreached hfind)
  · intro hedge
    have hroom : InsertRoom g root rowid row := by
      intro pageNo page pos hreached hfind _
      rw [if_neg (Nat.not_le.mpr hlong)]
      exact hedge pageNo page pos hreached hfind
    refine ⟨not_panics_of_wp ((wp_insert ht hroom).mono (fun _ _ => id) fun e g' he => he.1), ?_⟩
    intro pageNo page pos hreached hfind
    exact (hleaf pageNo page pos hreached hfind).1.mpr (hedge pageNo page pos hreached hfind)

end

/-! ## A row between two neighbours -/

/-- Row 2 of the table, with a Blob of 5000 bytes. -/
def longRow : List UInt8 := encodeRow 2 [(0, .blob (List.replicate 5000 1))]

theorem length_longRow : maxSingleRow < longRow.length := by
  have hvalue : encodeValue (.blob (List.replicate 5000 1)) =
      [4, 136, 19, 0, 0] ++ List.replicate 5000 1 := by
    rw [encodeValue, List.length_replicate]
    rfl
  have hlen : longRow.length = 5019 := by
    rw [longRow, encodeRow, sortColumns_eq_self (List.pairwise_singleton _ _)]
    show (leBytes 8 2 ++ leBytes 2 1 ++ leBytes 4 0 ++ (encodeValue _ ++ [])).length = _
    rw [hvalue, List.append_nil, ← List.append_assoc, List.length_append, List.length_replicate]
    rfl
  rw [hlen]
  decide

/-- The rows 1 and 3 of a table, without values. -/
def neighbours : List (List UInt8) := [(1, 10), (3, 10)].map fun e => paddedRow e.1 e.2

theorem findInsertionPoint_neighbours : letI := crc32Ieee
    findInsertionPoint (leafPage neighbours 0 0) 2 = .ok (1, false) := by
  decide +kernel

/-- **Overflow splits do not always find room.** -/
theorem not_overflow_insert_safe : ¬ @OverflowSplitsAlwaysSafe crc32Ieee := by
  let := crc32Ieee
  intro h
  have hused : usedSize neighbours = 40 := usedSize_paddedRows (by decide)
  have hfits : Fits neighbours := by
    rw [Fits, hused]
    decide
  obtain ⟨root, g, hreached, hview⟩ := @reached_rootLeaf _ [(1, 10), (3, 10)] (by decide) hfits
  have hsafe := h (PageFile.open []) g root 2 longRow hreached length_longRow
  have hcell := length_overflowCell 0 length_longRow
  have hhalves := hsafe.2 root _ 1 (descend_leaf hview) findInsertionPoint_neighbours 0
    ((needsSplit_cell hfits hcell).mpr (by decide))
  have hedge := (overflowHalvesFit_leafPage hfits (by decide) hcell (by decide)).mp hhalves
  revert hedge
  decide

/-- The insertion of a long row behind two others splits their leaf, and is safe. -/
theorem overflow_insert_safe_iff_split : letI := crc32Ieee
    ∃ root g pageNo page, Reached InsertRoom (PageFile.open []) root g ∧
      maxSingleRow < longRow.length ∧ reachedLeaf g root 4 = .ok (pageNo, page) ∧
      (∀ firstPage, pageSize < neededSize page (overflowCell longRow firstPage).length) ∧
      OverflowInsertSafe g root 4 longRow := by
  let := crc32Ieee
  obtain ⟨root, g, pageNo, page, htree, -, hreached, hsize, hfind, -⟩ := exists_splitTree
  have hrun : Reached InsertRoom (PageFile.open []) root g := reached_newTree.insertRows htree
  refine ⟨root, g, pageNo, page, hrun, length_longRow, hreached, fun firstPage => ?_, ?_⟩
  · rw [length_overflowCell firstPage length_longRow]
    exact hsize.trans_le (Nat.add_le_add_right (Nat.add_le_add_left (by decide) _) _)
  · refine (overflow_insert_safe_iff hrun 4 length_longRow).mpr fun pageNo' page' pos h hpos => ?_
    obtain ⟨rfl, rfl⟩ := Prod.mk.inj (Except.ok.inj (hreached.symm.trans h))
    obtain ⟨rfl, -⟩ := Prod.mk.inj (Except.ok.inj (hfind.symm.trans hpos))
    exact .inr rfl

end BoogyDb
