import BoogyDb.Overlay

/-!
# Tables behind page 0

Rows that are inserted into a tree behind page 0, and committed, are kept by pages behind
page 0 (`rowsAt_inserted`).

An insertion of a row that is too long for a leaf succeeds on an empty table while there are
page numbers left, and the table keeps the row.  Statements about what the engine makes of
long rows are tested on such a table.
-/

namespace BoogyDb

open Bytes Wp WriteGuard FencedTree Ownership

section

variable [Crc32Fast] {g : WriteGuard}

/-! ## Rows that are inserted -/

/-- A new file with page 0. -/
def firstPage : WriteGuard :=
  match allocatePage (PageFile.open []) with
  | .ok _ g => g
  | .error _ g => g

/-- A tree behind page 0. -/
def secondTree : ℕ × WriteGuard :=
  match BTreeWriter.create firstPage with
  | .ok root g => (root, g)
  | .error _ g => (0, g)

/-- The rows of `m` are kept behind page 0. -/
def KeptBehind (root : ℕ) (g : WriteGuard) (m : UInt64 → Option (List UInt8)) : Prop :=
  0 < g.bound ∧ ∃ P, RowsAt root m g P ∧ 0 ∉ P

theorem KeptBehind.turns {root root' : ℕ} {g' : WriteGuard} {m m' : UInt64 → Option (List UInt8)}
    (h : KeptBehind root g m)
    (hturns : ∀ P, RowsAt root m g P → Turns (RowsAt root' m') g P g') : KeptBehind root' g' m' := by
  obtain ⟨hbound, P, hrows, hzero⟩ := h
  obtain ⟨⟨P', hrows', hpages⟩, -, hle⟩ := hturns P hrows
  have hle' : g.bound ≤ g'.bound := hle
  refine ⟨hbound.trans_le hle', P', hrows', fun hmem => ?_⟩
  rcases hpages 0 hmem with hold | hnew
  · exact hzero hold
  · exact absurd (show g.bound ≤ 0 from hnew) (by omega)

theorem keptBehind_second : KeptBehind secondTree.1 secondTree.2 fun _ => none := by
  have hcreate : BTreeWriter.create firstPage = .ok secondTree.1 secondTree.2 := rfl
  have hbound : firstPage.bound = 1 := rfl
  obtain ⟨⟨P, hrows, hpages⟩, -, hle⟩ :=
    (@wp_create_rowsAt _ firstPage (fun _ _ => True) fun _ _ => trivial).ok hcreate
  have hle' : firstPage.bound ≤ secondTree.2.bound := hle
  refine ⟨by omega, P, hrows, fun hmem => ?_⟩
  rcases hpages 0 hmem with hold | hnew
  · exact hold
  · exact absurd (show firstPage.bound ≤ 0 from hnew) (by omega)

/-- **Rows that are inserted behind page 0 and committed** are kept there. -/
theorem rowsAt_inserted {rows : List (UInt64 × List UInt8)} {tree : ℕ × WriteGuard}
    {afterImages : List (ℕ × Page)} {file : PageFile}
    (hstore : ∀ entry ∈ rows, Storable entry.1 entry.2)
    (htree : insertRows rows secondTree = some tree)
    (hcommit : tree.2.commit = .ok (afterImages, file)) :
    KeptBehind tree.1 file (insertedMap rows fun _ => none) := by
  have hkept := @insertRows_preserves _ _ KeptBehind
    (fun m entry => Function.update m entry.1 (some entry.2)) rows
    (fun entry hmem root g m root' g' hP hroom hinsert => hP.turns fun P hrows =>
      ((wp_insert_rowsAt hrows hroom (hstore entry hmem)).ok hinsert).2)
    (fun _ => none) secondTree tree keptBehind_second htree
  exact hkept.turns fun P hrows => turns_commit hrows hcommit

/-! ## A long row -/

/-- Chunks are written while there are page numbers left. -/
theorem wp_writeChain_of_lt {chunks : List (List UInt8)} {nextPage : ℕ}
    (hchunks : ∀ chunk ∈ chunks, chunk.length ≤ overflowPayloadMax)
    (hbound : g.bound + chunks.length < pageNoLimit) :
    wp (writeChain chunks nextPage) (fun _ g' => g'.bound = g.bound + chunks.length)
      (fun _ _ => False) g := by
  induction chunks generalizing g nextPage with
  | nil => exact rfl
  | cons chunk chunks ih =>
      rw [List.forall_mem_cons] at hchunks
      rw [List.length_cons] at hbound
      have hcount : g.writeState.newPageCount ≤ g.bound := Nat.le_add_left _ _
      unfold writeChain
      rw [wp_bind]
      refine wp_allocatePage_of_lt (by omega) (by omega) fun g₁ halloc => ?_
      rw [wp_bind, wp_lift_ok (buildOverflowPage_ok hchunks.1), wp_bind]
      refine wp_putPage fun g₂ hputs => ?_
      have hbound₂ : g₂.bound = g.bound + 1 := by rw [hputs.bound, halloc.bound]
      refine (ih hchunks.2 (by omega)).post fun _ g' hg' => ?_
      rw [hg', hbound₂, List.length_cons]
      omega

theorem wp_writeOverflowRow_of_lt {row : List UInt8} (hlong : maxSingleRow ≤ row.length)
    (hbound : g.bound + row.length + 1 < pageNoLimit) :
    wp (writeOverflowRow row maxSingleRow) (fun _ g' => g'.bound ≤ g.bound + (row.length + 1))
      (fun _ _ => False) g := by
  have hbytes : bytesOf row (maxSingleRow - overflowTrailerSize) row.length =
      .ok (slice row (maxSingleRow - overflowTrailerSize) row.length) :=
    bytesOf_ok ((Nat.sub_le _ _).trans hlong) le_rfl
  have hcount : (chunks overflowPayloadMax
      (slice row (maxSingleRow - overflowTrailerSize) row.length)).reverse.length ≤
        row.length + 1 := by
    rw [List.length_reverse]
    refine (length_chunks_le _).trans (Nat.succ_le_succ ((Nat.div_le_self _ _).trans ?_))
    rw [length_slice le_rfl]
    exact Nat.sub_le _ _
  unfold writeOverflowRow
  rw [wp_bind, wp_lift_ok hbytes, wp_bind]
  refine (wp_writeChain_of_lt (fun chunk hchunk => ?_) (by omega)).post fun _ g' hg' => ?_
  · exact (length_of_mem_chunks (List.mem_reverse.mp hchunk)).1
  · exact hg'.trans_le (Nat.add_le_add_left hcount _)

/-- **A long row goes into an empty root leaf.** -/
theorem wp_insert_longRow {root : ℕ} {rowid : UInt64} {row : List UInt8}
    (hview : g.view root = .ok (leafPage [] 0 0)) (hroot : root < g.bound)
    (hlong : maxSingleRow < row.length) (hbound : g.bound + row.length + 1 < pageNoLimit) :
    wp (BTreeWriter.insert root rowid row)
      (fun root' g' => root' = root ∧ g'.bound ≤ g.bound + (row.length + 1))
      (fun _ _ => False) g := by
  have hempty : Fits ([] : List (List UInt8)) := by decide
  have hfind : findInsertionPoint (leafPage [] 0 0) rowid = .ok (0, false) := by
    rw [findInsertionPoint, numRows_leafPage hempty]
    exact if_pos rfl
  have hneeded : ∀ cell : List UInt8, neededSize (leafPage [] 0 0) cell.length ≤ pageSize ↔
      cell.length ≤ maxSingleRow := fun cell => by
    rw [@neededSize_leafPage [] cell 0 0 0 _ hempty le_rfl]
    show Fits [cell] ↔ _
    unfold Fits usedSize dataSize
    simp only [List.length_singleton, List.map_singleton, List.sum_singleton, maxSingleRow,
      pageSize, pageHeaderSize, checksumSize]
    omega
  have hlen : inlineDataLen ≤ row.length := (Nat.sub_le _ _).trans hlong.le
  rw [BTreeWriter.insert, wp_bind, show maxTreeDepth = 63 + 1 from rfl, insertRecursive, wp_bind]
  refine wp_readPage hview ?_
  rw [if_pos isLeaf_leafPage, BTreeWriter.insertIntoLeaf, wp_bind, wp_lift_ok hfind]
  dsimp only
  rw [if_neg (by simp), if_neg (by rw [hneeded]; omega), if_pos hlong, wp_bind]
  -- the row becomes a cell that fits
  have hcell := (@wp_writeOverflowRow _ g (fun _ _ => True) row hlen (Nat.zero_lt_of_lt hroot)
    fun _ _ _ _ => trivial).and (wp_writeOverflowRow_of_lt hlong.le hbound)
  refine hcell.mono (fun cell g₁ h => ?_) fun _ _ h => h.2.elim
  obtain ⟨⟨happ, hcell, -⟩, hbound₁⟩ := h
  have hmax : cell.length ≤ maxSingleRow := by
    rw [hcell]
    decide
  have hview₁ : g₁.view root = .ok (leafPage [] 0 0) := by rw [happ.view_eq root hroot, hview]
  show wp _ _ _ _
  rw [if_pos ((hneeded cell).mpr hmax), wp_bind]
  refine wp_insertInPlace hview₁ hempty le_rfl ?_ (by decide) (by decide) fun g₂ hputs =>
    ⟨rfl, hputs.bound.trans_le hbound₁⟩
  exact (@neededSize_leafPage [] cell 0 0 0 _ hempty le_rfl).mp ((hneeded cell).mpr hmax)

theorem insertRoom_longRow {root : ℕ} {rowid : UInt64} {row : List UInt8}
    (hview : g.view root = .ok (leafPage [] 0 0)) (hlong : maxSingleRow < row.length) :
    InsertRoom g root rowid row := by
  intro pageNo page pos hreached hfind _
  have hleaf : reachedLeaf g root rowid = .ok (root, leafPage [] 0 0) := descend_leaf hview
  obtain ⟨rfl, rfl⟩ := Prod.mk.inj (Except.ok.inj (hleaf.symm.trans hreached))
  have hpos := (findInsertionPoint_bounds (by decide) hfind).1
  rw [if_neg (Nat.not_le_of_lt hlong)]
  exact .inl (Nat.le_zero.mp hpos)

/-- **A committed table with one long row**, on pages behind page 0. -/
theorem exists_long_row {rowid : UInt64} {row : List UInt8} (hid : extractId row = .ok rowid)
    (hlong : maxSingleRow < row.length) (hle : row.length ≤ maxReassembleSize) :
    ∃ (file : PageFile) (P : Set ℕ), file.writeState = ⟨∅, 0⟩ ∧
      RowsAt 1 (Function.update (fun _ => none) rowid (some row)) file P ∧ 0 ∉ P := by
  have hsize : maxReassembleSize + 3 < pageNoLimit := by decide
  -- page 0, a new tree, the row
  obtain ⟨-, g₁, -, halloc⟩ := wp.exists_ok (@wp_allocatePage_of_lt _
    (PageFile.open []) (fun _ _ => False) (fun _ => Allocates (PageFile.open []))
    (by decide) (by decide) fun g' h => h)
  have hbound₁ : g₁.bound = 1 := halloc.bound
  have hcreate : wp createTree (fun root g' => root = 1 ∧ g'.view 1 = .ok (leafPage [] 0 0) ∧
      g'.bound = 2) (fun _ _ => False) g₁ := by
    unfold createTree
    have hcount : g₁.writeState.newPageCount ≤ g₁.bound := Nat.le_add_left _ _
    rw [wp_bind]
    refine wp_allocatePage_of_lt (by rw [hbound₁]; decide) ?_ fun g' halloc' => ?_
    · refine (Nat.succ_le_succ hcount).trans_lt ?_
      rw [hbound₁]
      decide
    rw [wp_bind, hbound₁, newLeaf_eq_leafPage]
    refine wp_putPage fun g'' hputs => ⟨rfl, hputs.view_self, ?_⟩
    rw [hputs.bound, halloc'.bound, hbound₁]
  have hnew := hcreate.and (@wp_create_rowsAt _ g₁ (fun _ _ => True) fun _ _ => trivial)
  obtain ⟨root, g₂, hrun₂, ⟨rfl, hview₂, hbound₂⟩, hturn₂⟩ := wp.exists_ok
    (hnew.mono (fun _ _ => id) fun _ _ h => h.1)
  obtain ⟨P₂, hrows₂, hpages₂⟩ := hturn₂.owns
  have hinsert := (@wp_insert_longRow _ g₂ 1 rowid row hview₂ (by omega) hlong (by omega)).and
    (wp_insert_rowsAt hrows₂ (insertRoom_longRow hview₂ hlong)
      ⟨hid, hle, fun hshort => absurd hshort (Nat.not_le_of_lt hlong)⟩)
  obtain ⟨-, g₃, hrun₃, ⟨rfl, hbound₃⟩, -, hturn₃⟩ := wp.exists_ok
    (hinsert.mono (fun _ _ => id) fun _ _ h => h.1)
  obtain ⟨P₃, hrows₃, hpages₃⟩ := hturn₃.owns
  have hdirty₁ : DirtyBelow g₁ := halloc.dirtyBelow fun p hp => by cases hp
  have hdirty₂ := ((wp_of_ok hrun₂).mp (OverlayFrom.createTree g₁ (Nat.zero_le _))).dirtyBelow
    hdirty₁
  have hdirty₃ := ((wp_of_ok hrun₃).mp
    (OverlayFrom.insertRow 1 rowid row g₂ (Nat.zero_le _))).dirtyBelow hdirty₂
  obtain ⟨⟨afterImages, file⟩, hcommit⟩ := commit_ok hdirty₃ (by omega)
  obtain ⟨⟨P, hrows, hpages⟩, -, -⟩ := turns_commit hrows₃ hcommit
  refine ⟨file, P, (commit_eq hcommit).2.1, hrows, fun hzero => ?_⟩
  -- page 0 was there before the tree
  have hle₂ : g₂.bound ≤ g₃.bound := hturn₃.bound_le
  rcases hpages 0 hzero with hzero | hge
  · rcases hpages₃ 0 hzero with hzero | hge
    · rcases hpages₂ 0 hzero with hzero | hge
      · exact hzero
      · have : g₁.bound ≤ 0 := hge
        omega
    · have : g₂.bound ≤ 0 := hge
      omega
  · have : g₃.bound ≤ 0 := hge
    omega

end

end BoogyDb
