import BoogyDb.RowBulk
import BoogyDb.Row

/-!
# What a table tree gives back

A run of a table tree inserts, deletes, deletes and updates by predicate, and
commits, in any order.  `StoredRun` keeps count of the rows that were stored: a
row is there from the insertion that returned until it is deleted or updated.

When every insertion of a run finds room and every row it stores is `Storable`,
the committed tree gives back exactly the rows that are there
(`stored_rows_faithful`).  Short rows that look like overflow cells are stored
all the same, and are not given back (`not_stored_rows_faithful`).
-/

namespace BoogyDb

open Bytes Wp WriteGuard FencedTree BTreeWriter

section

variable [Crc32Fast] {g g' : WriteGuard} {root : ℕ} {m : UInt64 → Option (List UInt8)}

/-! ## Creation and commits -/

theorem wp_create_holds {E : Fault → WriteGuard → Prop} (hE : ∀ e, AllocFault e → E e g) :
    wp create (fun root g' => Holds g' root fun _ => none) E g := by
  have htree : wp createTree (fun root g' =>
      TreeOf rowBranch cellOf g' root [⟨⊥, root, []⟩] [] ∧ Touches g g' [] ∧ root = g.bound) E g :=
    wp_createTree_tree hE
  refine htree.post fun root g' ⟨htree, _⟩ => ?_
  exact ⟨_, _, ⟨htree, by simp [contents], by simp [contents]⟩, Represents.nil⟩

theorem ChainAt.exists_page {v : ℕ → Result Page} {chain : List (ℕ × List UInt8)}
    (h : ChainAt v chain) {p : ℕ} (hp : p ∈ chain.map Prod.fst) : ∃ page, v p = .ok page := by
  induction chain with
  | nil => exact absurd hp List.not_mem_nil
  | cons entry chain ih =>
      obtain ⟨pageNo, data⟩ := entry
      rcases List.mem_cons.mp hp with rfl | hp
      · exact ⟨_, h.1.2.2.2.2⟩
      · exact ih h.2 hp

theorem KeptAs.exists_page {v : ℕ → Result Page} {row cell : List UInt8}
    {chain : List (ℕ × List UInt8)} (h : KeptAs v row cell chain) {p : ℕ}
    (hp : p ∈ chain.map Prod.fst) : ∃ page, v p = .ok page := by
  cases h with
  | inline hplain => exact absurd hp List.not_mem_nil
  | overflow hchain hdata hlen hlong => exact hchain.exists_page hp

/-- **A commit keeps the rows of a tree.** -/
theorem Holds.commit {file : PageFile} {afterImages : List (ℕ × Page)} (h : Holds g root m)
    (hcommit : g.commit = .ok (afterImages, file)) : Holds file root m := by
  obtain ⟨leaves, branches, htree, hrep⟩ := h
  refine ⟨leaves, branches, ⟨htree.tree.commit hcommit, fun e he => ?_, fun e he p hp => ?_⟩, hrep⟩
  · exact (htree.kept e he).congr fun p hp => by
      obtain ⟨page, hpage⟩ := (htree.kept e he).kept.exists_page hp
      rw [commit_view hcommit (htree.apart e he p hp).1 hpage, hpage]
  · rw [commit_bound hcommit]
    exact htree.apart e he p hp

/-! ## Reading a committed tree -/

/-- **A search in the file returns the row of its id.** -/
theorem Holds.search {file : PageFile} (h : Holds file root m) (hclean : file.writeState = ⟨∅, 0⟩)
    (rowid : UInt64) : BTreeReader.search file root rowid = .ok (m rowid) := by
  rw [BTreeReader.search, ← view_eq_readPage hclean]
  exact searchTree_holds h _ rowid

/-- **A scan of the file lists the rows in the order of their ids.** -/
theorem Holds.scanAll {file : PageFile} (h : Holds file root m)
    (hclean : file.writeState = ⟨∅, 0⟩) :
    ∃ rows, BTreeReader.scanAll file root = .ok rows ∧ Represents rows m := by
  obtain ⟨leaves, branches, htree, hrep⟩ := h
  obtain ⟨l, rest, page, rfl, hdescend⟩ := htree.tree.descend_leftmost
    "B+ tree depth exceeds maximum in find_leftmost_leaf"
  have hlen := htree.tree.length_le
  rw [List.length_cons, bound_eq_pageCount hclean] at hlen
  refine ⟨_, ?_, hrep⟩
  rw [BTreeReader.scanAll, ← view_eq_readPage hclean, hdescend, ok_bind]
  exact walkRows_holds htree hlen

/-! ## Runs -/

/-- The roots, states and stored rows of a table tree that was created in `g₀`.
Insertions met the condition `room`, and the rows that insertions and updates
stored met `storable`. -/
inductive StoredRun (room : WriteGuard → ℕ → UInt64 → List UInt8 → Prop)
    (storable : UInt64 → List UInt8 → Prop) (g₀ : WriteGuard) :
    ℕ → WriteGuard → (UInt64 → Option (List UInt8)) → Prop
  | create {root : ℕ} {g : WriteGuard} (h : create g₀ = .ok root g) :
      StoredRun room storable g₀ root g fun _ => none
  | insert {root root' : ℕ} {g g' : WriteGuard} {m : UInt64 → Option (List UInt8)}
      {rowid : UInt64} {row : List UInt8} (hrun : StoredRun room storable g₀ root g m)
      (hroom : room g root rowid row) (hrow : storable rowid row)
      (h : BTreeWriter.insert root rowid row g = .ok root' g') :
      StoredRun room storable g₀ root' g' (Function.update m rowid (some row))
  | insertRejected {root : ℕ} {g g' : WriteGuard} {m : UInt64 → Option (List UInt8)}
      {rowid : UInt64} {row : List UInt8} {e : Fault} (hrun : StoredRun room storable g₀ root g m)
      (hroom : room g root rowid row) (hrow : storable rowid row)
      (h : BTreeWriter.insert root rowid row g = .error e g') (hpages : ¬ AllocFault e) :
      StoredRun room storable g₀ root g' m
  | delete {root : ℕ} {g g' : WriteGuard} {m : UInt64 → Option (List UInt8)} {rowid : UInt64}
      {found : Bool} (hrun : StoredRun room storable g₀ root g m)
      (h : BTreeWriter.delete root rowid g = .ok found g') :
      StoredRun room storable g₀ root g' (Function.update m rowid none)
  | deleteMatching {root : ℕ} {g g' : WriteGuard} {m : UInt64 → Option (List UInt8)}
      {pred : List UInt8 → Bool} {deleted : List (UInt64 × List UInt8)}
      (hrun : StoredRun room storable g₀ root g m)
      (h : BTreeWriter.deleteMatching root pred g = .ok deleted g') :
      StoredRun room storable g₀ root g' (removeRows m deleted)
  | updateMatching {root : ℕ} {g g' : WriteGuard} {m : UInt64 → Option (List UInt8)}
      {pred : List UInt8 → Bool} {updater : List UInt8 → List UInt8}
      {updated left : List RowUpdate} (hrun : StoredRun room storable g₀ root g m)
      (hrows : ∀ id row, m id = some row → storable id (updater row))
      (h : BTreeWriter.updateMatching root pred updater g = .ok (updated, left) g') :
      StoredRun room storable g₀ root g' (applyUpdates m updated)
  | commit {root : ℕ} {g file : WriteGuard} {m : UInt64 → Option (List UInt8)}
      {afterImages : List (ℕ × Page)} (hrun : StoredRun room storable g₀ root g m)
      (h : g.commit = .ok (afterImages, file)) : StoredRun room storable g₀ root file m

theorem wp_insert_holds {rowid : UInt64} {row : List UInt8} (h : Holds g root m)
    (hroom : InsertRoom g root rowid row) (hrow : Storable rowid row) :
    wp (BTreeWriter.insert root rowid row)
      (fun root' g' => Holds g' root' (Function.update m rowid (some row)))
      (fun e g' => AllocFault e ∨ g' = g) g := by
  obtain ⟨leaves, branches, htree, hrep⟩ := h
  refine (wp_insert_rows htree hroom hrow).post ?_
  rintro root' g' ⟨leaves', branches', htree', hperm, -⟩
  exact ⟨_, _, htree', hrep.insert htree'.keysIncrease hperm⟩

/-- **In every run whose insertions find room and whose rows are storable, the tree
holds the rows that were stored.** -/
theorem StoredRun.holds {g₀ : WriteGuard} (h : StoredRun InsertRoom Storable g₀ root g m) :
    Holds g root m := by
  induction h with
  | create h => exact (@wp_create_holds _ _ (fun _ _ => True) fun _ _ => trivial).ok h
  | insert _ hroom hrow h ih => exact (wp_insert_holds ih hroom hrow).ok h
  | insertRejected _ hroom hrow h hpages ih =>
      obtain rfl := ((wp_insert_holds ih hroom hrow).error h).resolve_left hpages
      exact ih
  | delete _ h ih => exact ((@wp_delete_holds _ _ _ _ _ (fun _ _ => True) ih).ok h).2
  | deleteMatching _ h ih => exact (wp_deleteMatching_holds ih).ok h
  | updateMatching _ hrows h ih => exact (wp_updateMatching_holds ih hrows).ok h
  | commit _ h ih => exact ih.commit h

/-- The file gives back the rows of `m`: a search finds each, and a scan lists each
and no other bytes for its id. -/
def GivesBack (file : PageFile) (root : ℕ) (m : UInt64 → Option (List UInt8)) : Prop :=
  ∀ rowid row, m rowid = some row →
    BTreeReader.search file root rowid = .ok (some row) ∧
      ∃ rows, BTreeReader.scanAll file root = .ok rows ∧
        ∀ bytes, (rowid, bytes) ∈ rows ↔ bytes = row

/-- **Stored-row fidelity**, in every run whose insertions find room and whose rows
are storable. -/
theorem stored_rows_faithful {g₀ file : WriteGuard} {afterImages : List (ℕ × Page)}
    (h : StoredRun InsertRoom Storable g₀ root g m)
    (hcommit : g.commit = .ok (afterImages, file)) : GivesBack file root m := by
  have hheld := h.holds.commit hcommit
  have hclean := (commit_eq hcommit).2.1
  obtain ⟨rows, hscan, hrep⟩ := hheld.scanAll hclean
  intro rowid row hm
  refine ⟨by rw [hheld.search hclean, hm], rows, hscan, fun bytes => ?_⟩
  rw [hrep.mem_iff, hm, Option.some.injEq, eq_comm]

/-- The rows that the engine stores are encoded rows. -/
def EncodedRow (rowid : UInt64) (row : List UInt8) : Prop :=
  ∃ columns, row = encodeRow rowid columns

/-- Every tree gives back the encoded rows that were stored. -/
def StoredRowsFaithful : Prop :=
  ∀ (g₀ g file : WriteGuard) (root : ℕ) (m : UInt64 → Option (List UInt8))
    (afterImages : List (ℕ × Page)), StoredRun (fun _ _ _ _ => True) EncodedRow g₀ root g m →
      g.commit = .ok (afterImages, file) → GivesBack file root m

/-! ## A row that is not given back -/

/-- An Integer 65279 before a Boolean: its first bytes are `0xFF 0xFE`, ten bytes
before the end of the row. -/
def trailerLikeRow : List UInt8 := encodeRow 1 [(0, .integer 65279), (1, .boolean true)]

omit [Crc32Fast] in
theorem trailerLikeRow_eq : trailerLikeRow =
    [1, 0, 0, 0, 0, 0, 0, 0, 2, 0, 0, 0, 0, 0, 1, 0, 9, 0, 2, 255, 254, 0, 0, 0, 0, 0, 0, 5, 1] := by
  have hsorted : sortColumns [(0, .integer 65279), (1, .boolean true)] =
      [(0, .integer 65279), (1, .boolean true)] :=
    sortColumns_eq_self (by simp)
  rw [trailerLikeRow, encodeRow, hsorted]
  rfl

/-- An empty root leaf has room for a row that fits a page. -/
theorem insertRoom_emptyRoot {row : List UInt8} (rowid : UInt64) (hfits : Fits [row])
    (hview : g.view root = .ok (leafPage [] 0 0)) : InsertRoom g root rowid row := by
  intro pageNo page pos hreached hfind hsize
  have hleaf : reachedLeaf g root rowid = .ok (root, leafPage [] 0 0) := descend_leaf hview
  obtain ⟨rfl, rfl⟩ := Prod.mk.inj (Except.ok.inj (hleaf.symm.trans hreached))
  have hpos := (findInsertionPoint_bounds (by decide) hfind).1
  obtain rfl : pos = 0 := Nat.le_zero.mp hpos
  have hroom := (@neededSize_leafPage [] row 0 0 0 _ (by decide) le_rfl).mpr hfits
  omega

/-- A new tree with one row. -/
theorem exists_single_row {row : List UInt8} (rowid : UInt64) (hfits : Fits [row]) :
    ∃ g g', create (PageFile.open []) = .ok 0 g ∧ g.view 0 = .ok (leafPage [] 0 0) ∧
      BTreeWriter.insert 0 rowid row g = .ok 0 g' ∧ g'.view 0 = .ok (leafPage [row] 0 0) ∧
      g'.bound = 1 ∧ DirtyBelow g' := by
  obtain ⟨g, hok, hview, hbound, hbelow⟩ := exists_created
  obtain ⟨root', g', hok', rfl, hputs⟩ := wp.exists_ok (@wp_insert_rootLeaf _ g 0 0 0 [] [] rowid row
    (fun _ _ => False) hview hfits .nil
    .nil (fun id hid => absurd hid List.not_mem_nil) (by decide) (by decide))
  have hbelow' := hputs.dirtyBelow hbelow (hbound ▸ Nat.one_pos)
  exact ⟨g, g', hok, hview, hok', hputs.view_self, hputs.bound.trans hbound, hbelow'⟩

/-- A new tree with one row, committed. -/
theorem exists_committed_row {row : List UInt8} {rowid : UInt64} (hfits : Fits [row])
    (room : WriteGuard → ℕ → UInt64 → List UInt8 → Prop) (storable : UInt64 → List UInt8 → Prop)
    (hroom : ∀ g root, g.view root = .ok (leafPage [] 0 0) → room g root rowid row)
    (hrow : storable rowid row) :
    ∃ root g afterImages file, StoredRun room storable (PageFile.open []) root g
        (Function.update (fun _ => none) rowid (some row)) ∧
      g.commit = .ok (afterImages, file) ∧ file.readPage root = .ok (leafPage [row] 0 0) := by
  obtain ⟨g, g', hcreate, hview, hinsert, hview', hbound, hbelow⟩ := exists_single_row rowid hfits
  obtain ⟨⟨afterImages, file⟩, hcommit⟩ := commit_ok hbelow (hbound ▸ (by decide))
  exact ⟨0, g', afterImages, file, .insert (.create hcreate) (hroom g 0 hview) hrow hinsert,
    hcommit, commit_readPage hcommit (hbound ▸ Nat.one_pos) hview'⟩

/-- A search in a leaf with one row under its id. -/
theorem search_single {file : PageFile} {root : ℕ} {row : List UInt8} {rowid : UInt64}
    (hid : extractId row = .ok rowid) (hfits : Fits [row])
    (hpage : file.readPage root = .ok (leafPage [row] 0 0)) :
    BTreeReader.search file root rowid =
      (reassembleRow file.readPage row).map some := by
  have hids : HaveIds [row] [rowid] := .cons hid .nil
  obtain ⟨⟨pos, found⟩, hfind, hsplit⟩ := @findInsertionPoint_sorted _ [row] 0 0 rowid [rowid] hfits
    hids (List.pairwise_singleton _ _)
  have hfound : found = true := by
    by_contra hf
    exact hsplit.ne_of_miss (by simpa using hf) le_rfl (Nat.one_pos : 0 < [row].length) rfl
  subst hfound
  obtain ⟨hpos, -⟩ := hsplit.hit rfl
  obtain rfl : pos = 0 := Nat.lt_one_iff.mp hpos
  have hnum : (leafPage [row] 0 0).numRows = 1 := numRows_leafPage hfits
  have hbounds := @rowBounds_leafPage _ [row] 0 0 0 hfits Nat.one_pos
  have hslice := @rowSlice_leafPage _ [row] 0 0 0 hfits Nat.one_pos
  have hend := @rowEnd_le [row] 0 hfits Nat.one_pos
  have hlong := (extractId_eq_ok hid).1
  rw [rowSlice, hbounds, ok_bind] at hslice
  dsimp only [List.getElem_cons_zero, List.length_singleton] at hbounds hslice hend
  rw [BTreeReader.search, searchTree, show maxTreeDepth = 63 + 1 from rfl, descend_leaf hpage,
    ok_bind]
  dsimp only
  rw [hnum, if_neg Nat.one_ne_zero, hfind, ok_bind]
  dsimp only
  rw [if_pos rfl, hbounds, ok_bind]
  dsimp only
  rw [if_pos ⟨by omega, hend.trans (Nat.sub_le _ _)⟩, hslice, ok_bind]
  cases reassembleRow file.readPage row <;> rfl

omit [Crc32Fast] in
/-- The row is read back without its last ten bytes: the chain of page `0` is empty. -/
theorem reassemble_trailerLikeRow (read : ℕ → Result Page) :
    reassembleRow read trailerLikeRow = .ok (trailerLikeRow.take 19) := by
  have hdecode : decodeOverflowTrailer trailerLikeRow = .ok (19, 0, 17104896) := by
    rw [trailerLikeRow_eq]
    rfl
  have hover : hasOverflow trailerLikeRow = true := by
    rw [trailerLikeRow_eq]
    rfl
  have hinline : bytesOf trailerLikeRow 0 19 = .ok (trailerLikeRow.take 19) := by
    rw [trailerLikeRow_eq]
    rfl
  rw [reassembleRow, hover, if_neg (by simp), hdecode, ok_bind]
  dsimp only
  rw [if_neg (by decide), hinline, ok_bind, readChain_zero]

end

/-- **Not every stored row is given back.** -/
theorem not_stored_rows_faithful : ¬ @StoredRowsFaithful crc32Ieee := by
  let := crc32Ieee
  intro h
  have hid : extractId trailerLikeRow = .ok 1 := by
    rw [trailerLikeRow_eq]
    rfl
  have hfits : Fits [trailerLikeRow] := by
    rw [trailerLikeRow_eq]
    decide
  obtain ⟨root, g, afterImages, file, hrun, hcommit, hpage⟩ := exists_committed_row hfits
    (fun _ _ _ _ => True) EncodedRow (fun _ _ _ => trivial) ⟨_, rfl⟩
  obtain ⟨hsearch, -⟩ := h _ g file root _ afterImages hrun hcommit 1 trailerLikeRow
    (Function.update_self ..)
  rw [search_single hid hfits hpage, reassemble_trailerLikeRow] at hsearch
  have hlen := congrArg List.length (Option.some.inj (Except.ok.inj hsearch))
  rw [trailerLikeRow_eq] at hlen
  exact absurd hlen (by decide)

theorem storable_threeRows : ∀ entry ∈ threeRows, Storable entry.1 entry.2 := by
  have hplain : ∀ entry ∈ threeRows, hasOverflow entry.2 = false := by decide +kernel
  intro entry hmem
  obtain ⟨id, -, rfl⟩ := List.mem_map.mp hmem
  refine ⟨extractId_append id _, ?_, fun _ => hplain _ hmem⟩
  rw [length_paddedRow id (by decide)]
  decide

/-- The rows of a map, after these were inserted. -/
def insertedMap (rows : List (UInt64 × List UInt8)) (m : UInt64 → Option (List UInt8)) :
    UInt64 → Option (List UInt8) :=
  rows.foldl (fun m entry => Function.update m entry.1 (some entry.2)) m

theorem mem_of_insertedMap {rows : List (UInt64 × List UInt8)}
    {m : UInt64 → Option (List UInt8)} {id : UInt64} {row : List UInt8}
    (h : insertedMap rows m id = some row) : m id = some row ∨ (id, row) ∈ rows := by
  induction rows generalizing m with
  | nil => exact .inl h
  | cons entry rows ih =>
      rcases ih h with hold | hmem
      · change Function.update m entry.1 (some entry.2) id = some row at hold
        by_cases hid : id = entry.1
        · rw [hid, Function.update_self] at hold
          exact .inr (List.mem_cons.mpr (.inl (Prod.ext hid (Option.some.inj hold).symm)))
        · rw [Function.update_of_ne hid] at hold
          exact .inl hold
      · exact .inr (List.mem_cons_of_mem _ hmem)

/-- The value of the column of three rows; the second one needs overflow pages. -/
def mixedColumns (id : UInt64) : List Column :=
  [(0, if id = 1 then .null else .blob (List.replicate (if id = 2 then 5000 else 1) 7))]

def mixedRows : List (UInt64 × List UInt8) :=
  [1, 2, 3].map fun id => (id, encodeRow id (mixedColumns id))

/-- The rows by their ids. -/
def mixedMap : UInt64 → Option (List UInt8) := insertedMap mixedRows fun _ => none

theorem storable_mixedRows : ∀ entry ∈ mixedRows, Storable entry.1 entry.2 := by
  have hplain : ∀ entry ∈ mixedRows, entry.2.length ≤ maxReassembleSize ∧
      (entry.2.length ≤ maxSingleRow → hasOverflow entry.2 = false) := by decide +kernel
  intro entry hmem
  obtain ⟨hle, hno⟩ := hplain entry hmem
  obtain ⟨id, -, rfl⟩ := List.mem_map.mp hmem
  refine ⟨?_, hle, hno⟩
  rw [encodeRow]
  simp only [List.append_assoc]
  exact extractId_append id _

theorem mixedRows_splitsRoot : letI := crc32Ieee
    splitsRoot mixedRows newTree = true := by
  decide +kernel

/-- The rows are inserted, which splits the leaf, and committed. -/
theorem exists_mixed_rows : letI := crc32Ieee
    ∃ root g afterImages file, root ≠ newTree.1 ∧
      StoredRun InsertRoom Storable (PageFile.open []) root g mixedMap ∧
      g.commit = .ok (afterImages, file) := by
  let := crc32Ieee
  obtain ⟨root, g, afterImages, file, htree, hsplit, hcommit⟩ :=
    exists_of_splitsRoot mixedRows_splitsRoot
  have hrun := @insertRows_preserves _ _ (StoredRun InsertRoom Storable (PageFile.open []))
    (fun m entry => Function.update m entry.1 (some entry.2)) mixedRows
    (fun entry hmem root g m root' g' hP hroom hinsert =>
      .insert hP hroom (storable_mixedRows entry hmem) hinsert)
    (fun _ => none) newTree (root, g) (.create create_newTree) htree
  exact ⟨root, g, afterImages, file, hsplit, hrun, hcommit⟩

/-- A tree with rows on leaves and on overflow pages gives them back. -/
theorem stored_rows_faithful_mixed : letI := crc32Ieee
    ∃ root g afterImages file, root ≠ newTree.1 ∧
      StoredRun InsertRoom Storable (PageFile.open []) root g mixedMap ∧
      g.commit = .ok (afterImages, file) ∧ GivesBack file root mixedMap := by
  let := crc32Ieee
  obtain ⟨root, g, afterImages, file, hsplit, hrun, hcommit⟩ := exists_mixed_rows
  exact ⟨root, g, afterImages, file, hsplit, hrun, hcommit, stored_rows_faithful hrun hcommit⟩

end BoogyDb
