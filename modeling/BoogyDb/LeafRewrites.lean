import BoogyDb.LeafWriters
import Mathlib.Data.List.Sort

/-!
# What a rewritten leaf decodes to

A leaf is read through its row count: row `i` lies between its bounds, and a
row's end is the offset of the next one.  `Page.leafRows` reads all of them, on
any page.  The invariant of the copy loops (`Lays`) says where every byte of a
rewritten page is, so it determines this reading: `Lays.isLeafOf` turns it into
the rows, their bounds and the free space offset.

`rewriters_decode` puts the five rewriters together.  The snapshot is any page
that reads as `rows`, not only one these rewriters have written: its rows may be
anywhere in the page.  The page that is rewritten may hold anything.
-/

namespace BoogyDb

open Bytes

/-- The rows of a leaf, `&page.data[start..end]` for each pair of bounds. -/
def Page.leafRows (page : Page) : Result (List (List UInt8)) :=
  (List.range page.numRows).mapM fun i => rowSlice page i page.numRows

/-- The page reads as these rows, one right behind the other, from the end of
the offset array up to the free space. -/
structure IsLeafOf (page : Page) (rows : List (List UInt8)) : Prop where
  isLeaf : page.isLeaf = true
  numRows : page.numRows = rows.length
  leafRows : page.leafRows = .ok rows
  bounds : ∀ i (h : i < rows.length), rowBounds page i rows.length =
    .ok (rowStart rows i, rowStart rows i + rows[i].length)
  freeSpaceOffset : page.freeSpaceOffset = usedSize rows

/-- `write_leaf_with_replacements` as its caller sees it: what is returned, and
the page behind `&mut`. -/
def replaceInLeaf [Crc32Fast] (page snapshot : Page) (oldCount : ℕ)
    (replacements : List (ℕ × List UInt8)) : Result (Bool × Page) := do
  match ← writeLeafWithReplacements page snapshot oldCount replacements with
  | some written => pure (true, written)
  | none => pure (false, page)

section

variable {page snapshot : Page} {rows : List (List UInt8)}

theorem replaceInLeaf_of_some [Crc32Fast] {oldCount : ℕ} {replacements : List (ℕ × List UInt8)}
    {p : Page} (h : writeLeafWithReplacements page snapshot oldCount replacements = .ok (some p)) :
    replaceInLeaf page snapshot oldCount replacements = .ok (true, p) := by
  rw [replaceInLeaf, h, ok_bind]
  rfl

theorem replaceInLeaf_of_none [Crc32Fast] {oldCount : ℕ} {replacements : List (ℕ × List UInt8)}
    (h : writeLeafWithReplacements page snapshot oldCount replacements = .ok none) :
    replaceInLeaf page snapshot oldCount replacements = .ok (false, page) := by
  rw [replaceInLeaf, h, ok_bind]
  rfl

theorem leafRows_eq_ok_iff : page.leafRows = .ok rows ↔ rows.length = page.numRows ∧
    ∀ i (h : i < rows.length), rowSlice page i page.numRows = .ok rows[i] :=
  Except.mapM_range_eq_ok_iff

/-- A row that can be sliced can be copied: its end is not before its start. -/
theorem RowSource.bytes_of_rowSlice {i n : ℕ} {row : List UInt8}
    (h : rowSlice page i n = .ok row) : (RowSource.kept i).bytes page n = .ok row := by
  obtain ⟨⟨s, e⟩, hbounds, hrow⟩ := bind_eq_ok.mp h
  rw [RowSource.bytes, hbounds, ok_bind]
  dsimp only at hrow ⊢
  have hin : s ≤ e := by
    by_contra hlt
    rw [bytesOf, if_neg fun hin => hlt hin.1] at hrow
    cases hrow
  rw [if_neg (by omega), hrow]

theorem HasRows.of_leafRows (h : snapshot.leafRows = .ok rows) : HasRows snapshot rows := by
  obtain ⟨hlen, hrows⟩ := leafRows_eq_ok_iff.mp h
  intro i hi
  rw [hlen]
  exact RowSource.bytes_of_rowSlice (hrows i hi)

/-! ## Every page has a layout -/

/-- The header as the accessors read it. -/
def Page.header (page : Page) : Header :=
  ⟨page.magic, page.flags, page.numRows, page.freeSpaceOffset, page.nextLeaf, page.prevLeaf⟩

theorem leBytes_readLe {off width : ℕ} (h : off + width ≤ pageSize) :
    leBytes width (readLe page.data off width) = slice page.data off (off + width) := by
  have hlen : (slice page.data off (off + width)).length = width := by
    rw [length_slice (by rw [page.size]; exact h), Nat.add_sub_cancel_left]
  have hbytes := leBytes_leNat (slice page.data off (off + width))
  rw [hlen] at hbytes
  exact hbytes

theorem Page.bytes_header (page : Page) : page.header.bytes = slice page.data 0 pageHeaderSize := by
  have hmagic : leBytes 2 page.magic = slice page.data 0 2 := leBytes_readLe (by decide)
  have hflags : leBytes 2 page.flags = slice page.data 2 4 := leBytes_readLe (by decide)
  have hrows : leBytes 2 page.numRows = slice page.data 4 6 := leBytes_readLe (by decide)
  have hfree : leBytes 2 page.freeSpaceOffset = slice page.data 6 8 := leBytes_readLe (by decide)
  have hnext : leBytes 4 page.nextLeaf = slice page.data 8 12 := leBytes_readLe (by decide)
  have hprev : leBytes 4 page.prevLeaf = slice page.data 12 16 := leBytes_readLe (by decide)
  rw [Header.bytes, Page.header]
  dsimp only
  rw [hmagic, hflags, hrows, hfree, hnext, hprev, slice_append_slice (by decide) (by decide),
    slice_append_slice (by decide) (by decide), slice_append_slice (by decide) (by decide),
    slice_append_slice (by decide) (by decide), slice_append_slice (by decide) (by decide)]
  rfl

/-- Any page, as a header and a payload that fills the page. -/
theorem Page.lays (page : Page) : Lays page page.header
    (slice page.data pageHeaderSize (pageSize - checksumSize)) := by
  have hsize := page.size
  have hpayload : (slice page.data pageHeaderSize (pageSize - checksumSize)).length =
      payloadSize := by
    rw [length_slice (by rw [hsize]; decide)]
    rfl
  refine ⟨slice page.data (pageSize - checksumSize) pageSize, ?_, ?_⟩
  · rw [length_slice hsize.ge]
    rfl
  · rw [page.bytes_header, pad_of_le hpayload.le, hpayload, Nat.sub_self, List.replicate_zero,
      List.append_nil, slice_append_slice (by decide) (by decide),
      slice_append_slice (by decide) (by decide), ← hsize, slice_zero_length]

/-! ## Decoding -/

/-- The invariant of the copy loops determines what a reader sees. -/
theorem Lays.isLeafOf {magic next prev : ℕ}
    (hp : Lays page { leafHeader rows next prev with magic := magic } (leafBody rows))
    (hfits : Fits rows) : IsLeafOf page rows := by
  have hnum : page.numRows = rows.length := by
    rw [hp.numRows]
    exact Nat.mod_eq_of_lt hfits.length_lt
  have hbounds : ∀ i (h : i < rows.length), BoogyDb.rowBounds page i rows.length =
      .ok (rowStart rows i, rowStart rows i + rows[i].length) := fun i h =>
    hp.rowBounds hfits.image.1 hfits.image.2 rfl h
  refine ⟨?_, hnum, ?_, hbounds, ?_⟩
  · have hflags : page.flags = 1 := hp.flags
    rw [Page.isLeaf, hflags]
    rfl
  · rw [leafRows_eq_ok_iff, hnum]
    refine ⟨rfl, fun i h => ?_⟩
    have hend := rowEnd_le hfits h
    rw [rowSlice, hbounds i h, ok_bind]
    dsimp only
    rw [bytesOf_ok (Nat.le_add_right _ _) (by rw [page.size]; exact hend.trans (Nat.sub_le _ _)),
      hp.slice_row hfits h]
  · have hlt : usedSize rows < 65536 := hfits.trans_lt (by decide)
    rw [hp.freeSpaceOffset]
    exact Nat.mod_eq_of_lt hlt

/-! ## Ascending index lists -/

/-- An ascending list of indices in range is what a walk over the range collects. -/
theorem filter_mem_of_ascending {skip : List ℕ} {n : ℕ} (hasc : skip.Pairwise (· < ·))
    (hlt : ∀ j ∈ skip, j < n) : (List.range n).filter (fun i => i ∈ skip) = skip := by
  refine (List.pairwise_lt_range.filter _).eq_of_mem_iff hasc fun j => ?_
  rw [List.mem_filter, List.mem_range, decide_eq_true_iff]
  exact ⟨fun h => h.2, fun h => ⟨hlt j h, h⟩⟩

/-- The entry of an index, in a list where every index has one. -/
theorem mem_iff_lookup_of_ascending {replacements : List (ℕ × List UInt8)}
    (hasc : (replacements.map Prod.fst).Pairwise (· < ·)) {i : ℕ} {bytes : List UInt8} :
    (i, bytes) ∈ replacements ↔ replacements.lookup i = some bytes := by
  induction replacements with
  | nil => simp
  | cons entry rest ih =>
      rw [List.map_cons, List.pairwise_cons] at hasc
      obtain ⟨hbefore, hasc⟩ := hasc
      rw [List.mem_cons, ih hasc, List.lookup_cons]
      by_cases hi : i = entry.1
      · -- the later entries are for later indices
        have hnot : rest.lookup i ≠ some bytes := by
          intro hrest
          have hmem := List.mem_map_of_mem (f := Prod.fst) ((ih hasc).mpr hrest)
          exact (hbefore i hmem).ne' hi
        subst hi
        simp [hnot, Prod.ext_iff, eq_comm]
      · have hne : (i == entry.1) = false := by simpa using hi
        rw [hne]
        simp [Prod.ext_iff, hi]

theorem filterMap_lookup_of_ascending {replacements : List (ℕ × List UInt8)} {n : ℕ}
    (hasc : (replacements.map Prod.fst).Pairwise (· < ·)) (hlt : ∀ r ∈ replacements, r.1 < n) :
    (List.range n).filterMap (fun i => (replacements.lookup i).map (Prod.mk i)) =
      replacements := by
  have hasc' : replacements.Pairwise fun r r' => r.1 < r'.1 := List.pairwise_map.mp hasc
  have hfound : ((List.range n).filterMap fun i =>
      (replacements.lookup i).map (Prod.mk i)).Pairwise fun r r' => r.1 < r'.1 := by
    rw [List.pairwise_filterMap]
    refine List.pairwise_lt_range.imp fun hij r hr r' hr' => ?_
    obtain ⟨b, -, rfl⟩ := Option.map_eq_some_iff.mp hr
    obtain ⟨b', -, rfl⟩ := Option.map_eq_some_iff.mp hr'
    exact hij
  have hanti : Std.Antisymm fun r r' : ℕ × List UInt8 => r.1 < r'.1 :=
    ⟨fun _ _ h h' => absurd h h'.asymm⟩
  have hirrefl : Std.Irrefl fun r r' : ℕ × List UInt8 => r.1 < r'.1 := ⟨fun _ => lt_irrefl _⟩
  refine hfound.eq_of_mem_iff hasc' fun r => ?_
  rw [List.mem_filterMap]
  constructor
  · rintro ⟨i, _, hr⟩
    obtain ⟨b, hb, rfl⟩ := Option.map_eq_some_iff.mp hr
    exact (mem_iff_lookup_of_ascending hasc).mpr hb
  · intro hr
    refine ⟨r.1, List.mem_range.mpr (hlt r hr), ?_⟩
    rw [(mem_iff_lookup_of_ascending hasc).mp hr]
    rfl

/-! ## The five rewriters -/

/-- **The leaf rewriters are list operations.**  On a snapshot that reads as
`rows`, and over whatever the page held before: insertion, erasure of one row
and of an ascending list of rows, replacement of an ascending list of rows, and
a window of the rows with a new one inserted.  Replacement says `false` exactly
when the new rows do not fit, and then the page is as it was. -/
theorem rewriters_decode [Crc32Fast] (hsnap : snapshot.leafRows = .ok rows) (page : Page) :
    (∀ pos row, pos ≤ rows.length → Fits (rows.insertIdx pos row) →
      ∃ p, writeLeafWithInsert page snapshot snapshot.numRows pos row = .ok p ∧
        IsLeafOf p (rows.insertIdx pos row)) ∧
    (∀ pos, pos < rows.length → Fits (rows.eraseIdx pos) →
      ∃ p, writeLeafWithout page snapshot snapshot.numRows pos = .ok p ∧
        IsLeafOf p (rows.eraseIdx pos)) ∧
    (∀ skip : List ℕ, skip.Pairwise (· < ·) → (∀ j ∈ skip, j < rows.length) →
      Fits (keepIdxs (fun i => i ∉ skip) rows) →
      ∃ p, writeLeafWithoutMultiple page snapshot snapshot.numRows skip = .ok p ∧
        IsLeafOf p (keepIdxs (fun i => i ∉ skip) rows)) ∧
    (∀ replacements : List (ℕ × List UInt8), (replacements.map Prod.fst).Pairwise (· < ·) →
      (∀ r ∈ replacements, r.1 < rows.length) →
      (Fits (replaceIdxs (fun i => replacements.lookup i) rows) →
        ∃ p, replaceInLeaf page snapshot snapshot.numRows replacements = .ok (true, p) ∧
          IsLeafOf p (replaceIdxs (fun i => replacements.lookup i) rows)) ∧
      (¬ Fits (replaceIdxs (fun i => replacements.lookup i) rows) →
        replaceInLeaf page snapshot snapshot.numRows replacements = .ok (false, page))) ∧
    (∀ pos row start stop, pos ≤ rows.length → start ≤ stop → stop ≤ rows.length + 1 →
      Fits (((rows.insertIdx pos row).take stop).drop start) →
      ∃ p, writeLeafRange page snapshot snapshot.numRows pos row start stop = .ok p ∧
        IsLeafOf p (((rows.insertIdx pos row).take stop).drop start)) := by
  have hrows := HasRows.of_leafRows hsnap
  obtain ⟨hlen, -⟩ := leafRows_eq_ok_iff.mp hsnap
  rw [← hlen]
  refine ⟨?insert, ?without, ?withoutMultiple, ?replacements, ?range⟩
  case insert =>
    intro pos row hpos hfits
    obtain ⟨p, hp, hlays⟩ := writeLeafWithInsert_lays page.lays hrows hpos hfits
    exact ⟨p, hp, hlays.isLeafOf hfits⟩
  case without =>
    intro pos hpos hfits
    obtain ⟨p, hp, hlays⟩ := writeLeafWithout_lays page.lays hrows hpos hfits
    exact ⟨p, hp, hlays.isLeafOf hfits⟩
  case withoutMultiple =>
    intro skip hasc hlt hfits
    have htest : (fun i => decide (i ∉ skip)) = fun i => !decide (i ∈ skip) := by
      funext i
      exact decide_not
    rw [htest] at hfits ⊢
    obtain ⟨p, hp, hlays⟩ := writeLeafWithoutMultiple_lays page.lays hrows (fun i => i ∈ skip) hfits
    rw [filter_mem_of_ascending hasc hlt] at hp
    exact ⟨p, hp, hlays.isLeafOf hfits⟩
  case replacements =>
    intro replacements hasc hlt
    have hwrite := writeLeafWithReplacements_lays page.lays hrows fun i => replacements.lookup i
    rw [filterMap_lookup_of_ascending hasc hlt] at hwrite
    refine ⟨fun hfits => ?_, fun hfits => ?_⟩
    · rw [if_pos hfits] at hwrite
      exact ⟨_, replaceInLeaf_of_some hwrite, Lays.pageOf.isLeafOf hfits⟩
    · rw [if_neg hfits] at hwrite
      exact replaceInLeaf_of_none hwrite
  case range =>
    intro pos row start stop hpos _ hstop hfits
    obtain ⟨p, hp, hlays⟩ := writeLeafRange_lays page.lays hrows hpos hstop hfits
    exact ⟨p, hp, hlays.isLeafOf hfits⟩

/-- A leaf with three rows. -/
def leafOfThree [Crc32Fast] : Page := leafPage [[1], [2, 3], [4]] 7 0

/-- The five rewriters on a leaf with three rows, and a replacement that does not fit. -/
theorem rewriters_decode_three :
    letI := crc32Ieee
    (∃ p, writeLeafWithInsert Page.zeroed leafOfThree leafOfThree.numRows 1 [9] = .ok p ∧
      IsLeafOf p [[1], [9], [2, 3], [4]]) ∧
    (∃ p, writeLeafWithout Page.zeroed leafOfThree leafOfThree.numRows 1 = .ok p ∧
      IsLeafOf p [[1], [4]]) ∧
    (∃ p, writeLeafWithoutMultiple Page.zeroed leafOfThree leafOfThree.numRows [0, 2] = .ok p ∧
      IsLeafOf p [[2, 3]]) ∧
    (∃ p, replaceInLeaf Page.zeroed leafOfThree leafOfThree.numRows [(0, [5, 6]), (2, [])] =
        .ok (true, p) ∧
      IsLeafOf p [[5, 6], [2, 3], []]) ∧
    replaceInLeaf Page.zeroed leafOfThree leafOfThree.numRows [(1, List.replicate pageSize 0)] =
      .ok (false, Page.zeroed) ∧
    (∃ p, writeLeafRange Page.zeroed leafOfThree leafOfThree.numRows 3 [9] 1 4 = .ok p ∧
      IsLeafOf p [[2, 3], [4], [9]]) := by
  let := crc32Ieee
  have hrows : leafOfThree.leafRows = .ok [[1], [2, 3], [4]] :=
    (leafPage_lays.isLeafOf (by decide)).leafRows
  obtain ⟨hinsert, hwithout, hmultiple, hreplace, hrange⟩ :=
    rewriters_decode hrows Page.zeroed
  exact ⟨hinsert 1 [9] (by decide) (by decide), hwithout 1 (by decide) (by decide),
    hmultiple [0, 2] (by decide) (by decide) (by decide),
    (hreplace [(0, [5, 6]), (2, [])] (by decide) (by decide)).1 (by decide),
    (hreplace [(1, List.replicate pageSize 0)] (by simp) (by simp)).2 (by decide +kernel),
    hrange 3 [9] 1 4 (by decide) (by decide) (by decide) (by decide)⟩

end

end BoogyDb
