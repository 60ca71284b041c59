import BoogyDb.BTreeLeaf
import BoogyDb.OrderedLeaves
import BoogyDb.SplitSafety

/-!
# The rows a table tree stores

The abstract state of a table tree is a map from row ids to row bytes.  `Holds`
relates it to the pages: the leaves hold the cells the rows are kept as, in the
order of their ids, and the overflow chains of the cells are on pages of their
own.  Insertion, deletion, search and scan are then operations on the map.
-/

namespace BoogyDb

open Bytes BinarySearch Wp WriteGuard FencedTree

/-- A row with the cell and the overflow chain it is kept as. -/
structure StoredRow where
  row : List UInt8
  cell : List UInt8
  chain : List (ℕ × List UInt8)

def cellOf (e : UInt64 × StoredRow) : List UInt8 := e.2.cell

/-- The pages of the overflow chain. -/
def chainPages (e : UInt64 × StoredRow) : List ℕ := e.2.chain.map Prod.fst

section

variable [Crc32Fast]

/-- The entry is a whole row under its id. -/
structure Kept (v : ℕ → Result Page) (e : UInt64 × StoredRow) : Prop where
  kept : KeptAs v e.2.row e.2.cell e.2.chain
  id : extractId e.2.row = .ok e.1
  length_le : e.2.row.length ≤ maxReassembleSize

/-- The leaves and branches are a tree below `root`, and its entries are kept. -/
structure RowTree (g : WriteGuard) (root : ℕ) (leaves : List (Leaf UInt64 StoredRow))
    (branches : List ℕ) : Prop where
  tree : TreeOf rowBranch cellOf g root leaves branches
  kept : ∀ e ∈ contents leaves, Kept g.view e
  apart : ∀ e ∈ contents leaves, ∀ p ∈ chainPages e,
    p < g.bound ∧ p ∉ leaves.map Leaf.page ++ branches

/-- The leaves and branches are a tree below `root`, and each cell starts with its row id.
Whether the cells are whole rows is left open. -/
structure CellTree {α : Type} (cell : UInt64 × α → List UInt8) (g : WriteGuard) (root : ℕ)
    (leaves : List (Leaf UInt64 α)) (branches : List ℕ) : Prop where
  tree : TreeOf rowBranch cell g root leaves branches
  ids : ∀ e ∈ contents leaves, extractId (cell e) = .ok e.1

/-- The pages of the tree and of the overflow chains of its rows. -/
def rowPages (leaves : List (Leaf UInt64 StoredRow)) (branches : List ℕ) : Set ℕ :=
  {p | p ∈ leaves.map Leaf.page ++ branches ∨ ∃ e ∈ contents leaves, p ∈ chainPages e}

def rowsIn (leaves : List (Leaf UInt64 StoredRow)) : List (UInt64 × List UInt8) :=
  (contents leaves).map fun e => (e.1, e.2.row)

/-- **The tree below `root` stores the rows of `m`.** -/
def Holds (g : WriteGuard) (root : ℕ) (m : UInt64 → Option (List UInt8)) : Prop :=
  ∃ leaves branches, RowTree g root leaves branches ∧ Represents (rowsIn leaves) m

/-! ## Cells -/

section

variable {v v' : ℕ → Result Page} {e : UInt64 × StoredRow} {row cell : List UInt8}
  {chain : List (ℕ × List UInt8)} {rowid : UInt64}

theorem Kept.congr (h : Kept v e) (heq : ∀ p ∈ chainPages e, v' p = v p) : Kept v' e :=
  ⟨h.kept.congr heq, h.id, h.length_le⟩

theorem Kept.reassemble (h : Kept v e) : reassembleRow v (cellOf e) = .ok e.2.row :=
  h.kept.reassemble h.length_le

omit [Crc32Fast] in
theorem extractId_eq_ok (h : extractId row = .ok rowid) :
    8 ≤ row.length ∧ UInt64.ofNat (readLe row 0 8) = rowid := by
  rcases Nat.lt_or_ge row.length 8 with hlt | hge
  · obtain ⟨e, he⟩ := extractId_of_length_lt hlt
    rw [he] at h
    cases h
  · rw [extractId_of_le_length hge] at h
    exact ⟨hge, Except.ok.inj h⟩

omit [Crc32Fast] in
/-- The row id is in the first 8 bytes. -/
theorem extractId_of_take (htake : cell.take 8 = row.take 8) (hid : extractId row = .ok rowid) :
    extractId cell = .ok rowid := by
  obtain ⟨hrow, hread⟩ := extractId_eq_ok hid
  have hlen := congrArg List.length htake
  rw [List.length_take, List.length_take, Nat.min_eq_left hrow] at hlen
  rw [extractId_of_le_length (by omega), ← hread]
  congr 2
  exact congrArg leNat htake

/-- A cell starts like its row, so it has the same id. -/
theorem KeptAs.extractId (h : KeptAs v row cell chain) (hid : extractId row = .ok rowid) :
    BoogyDb.extractId cell = .ok rowid := by
  cases h with
  | inline h => exact hid
  | overflow hchain hdata hlen hlong =>
      refine extractId_of_take ?_ hid
      have h8 : 8 ≤ inlineDataLen := by decide
      have hfront : 8 ≤ (row.take inlineDataLen).length := by
        rw [List.length_take, Nat.min_eq_left hlong]
        exact h8
      rw [appendOverflowTrailer, List.append_assoc, List.append_assoc,
        List.take_append_of_le_length hfront, List.take_take, Nat.min_eq_left h8]

theorem Kept.extractId_cell (h : Kept v e) : extractId (cellOf e) = .ok e.1 :=
  h.kept.extractId h.id

end

/-! ## Leaves -/

section

variable {g g₁ g' : WriteGuard} {root pos : ℕ} {leaves pre post : List (Leaf UInt64 StoredRow)}
  {l : Leaf UInt64 StoredRow} {branches : List ℕ} {rowid : UInt64} {row : List UInt8}
  {next prev : ℕ}

omit [Crc32Fast] in
theorem mem_contents {α : Type} {leaves : List (Leaf UInt64 α)} {l : Leaf UInt64 α}
    (hl : l ∈ leaves) {e : UInt64 × α} (he : e ∈ l.entries) : e ∈ contents leaves :=
    List.mem_flatMap.mpr ⟨l, hl, he⟩

theorem RowTree.cells (h : RowTree g root leaves branches) :
    CellTree cellOf g root leaves branches :=
  ⟨h.tree, fun e he => (h.kept e he).extractId_cell⟩

theorem CellTree.haveIds {α : Type} {cell : UInt64 × α → List UInt8} {leaves : List (Leaf UInt64 α)}
    {l : Leaf UInt64 α} (h : CellTree cell g root leaves branches) (hl : l ∈ leaves) :
    HaveIds (rowsOf cell l) (l.entries.map Prod.fst) := by
  rw [HaveIds, rowsOf, List.forall₂_map_left_iff, List.forall₂_map_right_iff, List.forall₂_same]
  exact fun e he => h.ids e (mem_contents hl he)

/-- The search in a leaf of the tree splits its ids. -/
theorem CellTree.findInsertionPoint {α : Type} {cell : UInt64 × α → List UInt8}
    {leaves : List (Leaf UInt64 α)} {l : Leaf UInt64 α}
    (h : CellTree cell g root leaves branches) (hl : l ∈ leaves) (rowid : UInt64) :
    ∃ res, BoogyDb.findInsertionPoint (leafPage (rowsOf cell l) next prev) rowid = .ok res ∧
      Splits (fun i => (l.entries.map Prod.fst).getD i default) rowid 0 l.entries.length res := by
  obtain ⟨pre, post, rfl⟩ := List.append_of_mem hl
  have hsorted := List.pairwise_map.mpr (h.tree.ordered.sorted l hl).increase
  obtain ⟨res, hres, hsplit⟩ := @findInsertionPoint_sorted _ (rowsOf cell l) next prev rowid _
    h.tree.chained.leafAt.fits (h.haveIds hl) hsorted
  rw [rowsOf, List.length_map] at hsplit
  exact ⟨res, hres, hsplit⟩

/-- What an insertion into a leaf does: its entries, with the row among them, are
in the leaves `new`. -/
structure Takes (g : WriteGuard) (e : UInt64 × StoredRow) (l : Leaf UInt64 StoredRow)
    (new : List (Leaf UInt64 StoredRow)) (g₁ : WriteGuard) : Prop where
  kept : Kept g₁.view e
  chain : ∀ p ∈ chainPages e, g.bound ≤ p ∧ p < g₁.bound ∧ p ∉ new.map Leaf.page
  contents : ∃ pos ≤ l.entries.length, contents new = l.entries.insertIdx pos e

omit [Crc32Fast] in
theorem contents_halves (l : Leaf UInt64 StoredRow) (pos : ℕ) (e : UInt64 × StoredRow)
    (mid : ℕ) (fence : UInt64) (newPage : ℕ) :
    contents (halves l pos e mid fence newPage) = l.entries.insertIdx pos e := by
  show (grownLeaf l pos e).entries.take mid ++ ((grownLeaf l pos e).entries.drop mid ++ []) = _
  rw [List.append_nil, List.take_append_drop]
  rfl

/-- An entry that was written before its leaf stays kept. -/
theorem Takes.of_touches {e : UInt64 × StoredRow} {new : List (Leaf UInt64 StoredRow)}
    (hkept : Kept g₁.view e) (hchain : ∀ p ∈ chainPages e, g.bound ≤ p ∧ p < g₁.bound)
    (ht : Touches g₁ g' (leaves.map Leaf.page)) (hbelow : ∀ q ∈ leaves, q.page < g.bound)
    (hnew : ∀ q ∈ new, q.page < g.bound ∨ g₁.bound ≤ q.page)
    (hcontents : ∃ pos ≤ l.entries.length, FencedTree.contents new = l.entries.insertIdx pos e) :
    Takes g e l new g' where
  kept := by
    refine hkept.congr fun p hp => ht.view_eq p (hchain p hp).2 fun hmem => ?_
    obtain ⟨q, hq, rfl⟩ := List.mem_map.mp hmem
    exact absurd (hbelow q hq) (Nat.not_lt.mpr (hchain _ hp).1)
  chain p hp := by
    obtain ⟨hle, hlt⟩ := hchain p hp
    refine ⟨hle, hlt.trans_le ht.bound_le, fun hmem => ?_⟩
    obtain ⟨q, hq, rfl⟩ := List.mem_map.mp hmem
    have := hnew q hq
    omega
  contents := hcontents

/-- Separators are the id of the first entry behind the split. -/
theorem separator_eq (h : RowTree g root leaves branches) (hl : l ∈ leaves)
    {e : UInt64 × StoredRow} (hid : extractId (cellOf e) = .ok e.1) {mid : ℕ}
    (hpos : pos ≤ l.entries.length) (hmid : mid < (grownLeaf l pos e).entries.length) :
    extractIdAtVirtualPos (leafPage (rowsOf cellOf l) next prev) (rowsOf cellOf l).length pos
      (cellOf e) mid = .ok (grownLeaf l pos e).entries[mid].1 := by
  obtain ⟨pre, post, rfl⟩ := List.append_of_mem hl
  have hlen : (rowsOf cellOf l).length = l.entries.length := List.length_map _
  have hgrown : (grownLeaf l pos e).entries.length = l.entries.length + 1 :=
    List.length_insertIdx_of_le_length hpos e
  rw [extractIdAtVirtualPos_leafPage h.tree.chained.leafAt.fits (hlen ▸ hpos) (by omega)]
  have hget : getElem ((rowsOf cellOf l).insertIdx pos (cellOf e)) mid (by
      rw [List.length_insertIdx_of_le_length (hlen ▸ hpos)]
      omega) = cellOf (grownLeaf l pos e).entries[mid] := by
    simp only [rowsOf, ← List.map_insertIdx, List.getElem_map, grownLeaf]
  rw [hget]
  rcases List.eq_or_mem_of_mem_insertIdx (List.getElem_mem hmid) with heq | hmem
  · rw [heq]
    exact hid
  · exact (h.kept _ (mem_contents hl hmem)).extractId_cell

theorem Appends.touches (h : Appends g g') : Touches g g' [] := ⟨fun q hq _ => h.view_eq q hq, h.bound_le⟩

/-- A split around a new entry, at a position where both halves fit. -/
theorem wp_splitLeaf_takes {e : UInt64 × StoredRow} {mid : ℕ}
    (h : RowTree g root (pre ++ l :: post) branches) (ht : Touches g g₁ [])
    (hview : g.view l.page = .ok (leafPage (rowsOf cellOf l) next prev))
    (hnext : next = nextPage post 0) (hprev : prev = lastPage 0 pre) (hb : Belongs l post pos e)
    (hkept : Kept g₁.view e) (hchain : ∀ p ∈ chainPages e, g.bound ≤ p ∧ p < g₁.bound)
    (hmid : 0 < mid) (hmidle : mid ≤ l.entries.length)
    (hleft : Fits (leftHalf (rowsOf cellOf l) pos (cellOf e) mid))
    (hright : Fits (rightHalf (rowsOf cellOf l) pos (cellOf e) mid)) :
    wp (splitLeaf l.page (leafPage (rowsOf cellOf l) next prev) pos (cellOf e) mid
        (extractIdAtVirtualPos (leafPage (rowsOf cellOf l) next prev) (rowsOf cellOf l).length pos
          (cellOf e) mid))
      (fun r g' => ∃ new, LeafStep rowBranch cellOf g pre post l r g' new ∧ Takes g e l new g')
      (fun e g' => AllocFault e ∨ g' = g) g₁ := by
  have hmem : l ∈ pre ++ l :: post := List.mem_append_right _ List.mem_cons_self
  have hlen : (grownLeaf l pos e).entries.length = l.entries.length + 1 :=
    List.length_insertIdx_of_le_length hb.pos_le e
  have hlt : mid < (grownLeaf l pos e).entries.length := by omega
  have hinc := (hb.sorted (h.tree.ordered.sorted l hmem)).increase
  have hsep := @separator_eq _ _ _ pos _ _ _ next prev h hmem e hkept.extractId_cell mid hb.pos_le
    hlt
  refine (wp_splitLeaf_step h.tree ht hview hnext hprev hb hmid hmidle hleft hright hsep
    (hinc.lt_of_mem_take hlt) (hinc.le_of_mem_drop hlt) fun e he => .inl he).post ?_
  rintro r g' ⟨hstep, ht', hbound⟩
  refine ⟨_, hstep, .of_touches hkept hchain ht' (fun q hq => h.tree.page_lt hq) ?_
    ⟨pos, hb.pos_le, contents_halves _ _ _ _ _ _⟩⟩
  intro q hq
  rcases List.mem_pair.mp hq with rfl | rfl
  · have hlt := h.tree.page_lt hmem
    exact .inl hlt
  · exact .inr le_rfl

theorem wp_insertInPlace_takes {e : UInt64 × StoredRow}
    (h : RowTree g root (pre ++ l :: post) branches) (ht : Touches g g₁ [])
    (hview : g.view l.page = .ok (leafPage (rowsOf cellOf l) next prev))
    (hnext : next = nextPage post 0) (hprev : prev = lastPage 0 pre) (hb : Belongs l post pos e)
    (hkept : Kept g₁.view e) (hchain : ∀ p ∈ chainPages e, g.bound ≤ p ∧ p < g₁.bound)
    (hfits : Fits ((rowsOf cellOf l).insertIdx pos (cellOf e))) :
    wp (insertInPlace l.page (leafPage (rowsOf cellOf l) next prev) pos (cellOf e))
      (fun _ g' => ∃ new, LeafStep rowBranch cellOf g pre post l .fit g' new ∧ Takes g e l new g')
      (fun e g' => AllocFault e ∨ g' = g) g₁ := by
  have hmem : l ∈ pre ++ l :: post := List.mem_append_right _ List.mem_cons_self
  refine (wp_insertInPlace_step h.tree ht hview hnext hprev hb hfits).post ?_
  rintro _ g' ⟨hstep, ht'⟩
  have ht'' : Touches g₁ g' ((pre ++ l :: post).map Leaf.page) := ht'.mono (by simp)
  refine ⟨_, hstep, .of_touches hkept hchain ht'' (fun q hq => h.tree.page_lt hq) ?_
    ⟨pos, hb.pos_le, List.flatMap_singleton _ _⟩⟩
  intro q hq
  have hlt := h.tree.page_lt hmem
  rw [List.mem_singleton.mp hq]
  exact .inl hlt

/-- A row the tree can give back: it has its id, is not longer than the reassembly
limit, and does not look like an overflow cell when it is short enough for a leaf. -/
structure Storable (rowid : UInt64) (row : List UInt8) : Prop where
  id : extractId row = .ok rowid
  length_le : row.length ≤ maxReassembleSize
  plain : row.length ≤ maxSingleRow → hasOverflow row = false

/-- **An insertion into a leaf** that has room for it. -/
theorem wp_insertIntoLeaf_takes (h : RowTree g root (pre ++ l :: post) branches)
    (hle : l.fence ≤ (rowid : WithBot UInt64)) (hlt : ∀ q ∈ post, (rowid : WithBot UInt64) < q.fence)
    (hnext : next = nextPage post 0) (hprev : prev = lastPage 0 pre)
    (hview : g.view l.page = .ok (leafPage (rowsOf cellOf l) next prev))
    (hstore : Storable rowid row)
    (hroom : ∀ pos, BoogyDb.findInsertionPoint (leafPage (rowsOf cellOf l) next prev) rowid =
      .ok (pos, false) → LeafRoom (leafPage (rowsOf cellOf l) next prev) pos row.length) :
    wp (BTreeWriter.insertIntoLeaf rowid row l.page (leafPage (rowsOf cellOf l) next prev))
      (fun r g' => ∃ new, LeafStep rowBranch cellOf g pre post l r g' new ∧
        ∃ s, s.row = row ∧ Takes g (rowid, s) l new g')
      (fun e g' => AllocFault e ∨ g' = g) g := by
  have hmem : l ∈ pre ++ l :: post := List.mem_append_right _ List.mem_cons_self
  have hfits : Fits (rowsOf cellOf l) := h.tree.chained.leafAt.fits
  have hlen : (rowsOf cellOf l).length = l.entries.length := List.length_map _
  obtain ⟨⟨pos, found⟩, hfind, hsplit⟩ := @CellTree.findInsertionPoint _ _ _ _ next prev _ _ _ _
    h.cells hmem rowid
  have hpos : pos ≤ (rowsOf cellOf l).length := hlen ▸ hsplit.le_hi
  rw [BTreeWriter.insertIntoLeaf, wp_bind, wp_lift_ok hfind]
  dsimp only
  refine wp_ite (fun _ => .inr rfl) fun hnew => ?_
  obtain rfl : found = false := Bool.eq_false_iff.mpr hnew
  have hb : ∀ s, Belongs l post pos ((rowid, s) : UInt64 × StoredRow) := fun s =>
    belongs_of_splits (e := (rowid, s)) hsplit rfl hle hlt
  replace hroom := hroom pos hfind
  -- the row itself as a cell
  have hinline : row.length ≤ maxSingleRow → Kept g.view (rowid, ⟨row, row, []⟩) := fun hshort =>
    ⟨.inline (hstore.plain hshort), hstore.id, hstore.length_le⟩
  refine wp_ite (fun hsize => ?_) fun hsize => ?_
  · have hfits' := (neededSize_leafPage hfits hpos).mp hsize
    have hshort : row.length ≤ maxSingleRow := by
      have hused : usedSize (rowsOf cellOf l) + 2 + row.length ≤ pageSize - checksumSize := by
        rw [← usedSize_insertIdx hpos]
        exact hfits'
      have hheader : pageHeaderSize ≤ usedSize (rowsOf cellOf l) := by
        rw [usedSize, Nat.add_assoc]
        exact Nat.le_add_right _ _
      simp only [maxSingleRow, pageSize, pageHeaderSize, checksumSize] at *
      omega
    rw [wp_bind]
    refine (wp_insertInPlace_takes (e := (rowid, ⟨row, row, []⟩)) h (.refl g []) hview hnext hprev
      (hb _) (hinline hshort) (by simp [chainPages]) hfits').post ?_
    rintro _ g' ⟨new, hstep, htakes⟩
    exact ⟨new, hstep, _, rfl, htakes⟩
  · replace hroom := hroom (Nat.lt_of_not_le hsize)
    rw [numRows_leafPage hfits]
    refine wp_ite (fun hlong => ?_) fun hshort => ?_
    · -- the row goes to overflow pages, and its cell to the leaf
      rw [if_neg (Nat.not_le.mpr hlong), numRows_leafPage hfits] at hroom
      have hlong' : inlineDataLen ≤ row.length := (Nat.sub_le _ _).trans hlong.le
      rw [wp_bind]
      refine (wp_writeOverflowRow hlong' (Nat.zero_lt_of_lt (h.tree.page_lt hmem))
        fun e g' he _ => .inl he).post ?_
      rintro cell g₁ ⟨happ, hcell, -, chain, hkeptAs, hchain⟩
      have hkept : Kept g₁.view (rowid, ⟨row, cell, chain⟩) := ⟨hkeptAs, hstore.id, hstore.length_le⟩
      refine wp_ite (fun hsize => ?_) fun hsize => ?_
      · rw [wp_bind]
        refine (wp_insertInPlace_takes (e := (rowid, ⟨row, cell, chain⟩)) h happ.touches hview hnext
          hprev (hb _) hkept hchain ((neededSize_leafPage hfits hpos).mp hsize)).post ?_
        rintro _ g' ⟨new, hstep, htakes⟩
        exact ⟨new, hstep, _, rfl, htakes⟩
      · have hne : rowsOf cellOf l ≠ [] := by
          intro hempty
          refine hsize ?_
          rw [hempty, neededSize, numRows_leafPage (show Fits [] by decide),
            existingDataSize_leafPage (show Fits [] by decide), hcell]
          decide
        obtain ⟨mid, hmid, hmid₀, hmidle, hleft, hright⟩ :=
          @findOverflowSplitPoint_edge _ (rowsOf cellOf l) next prev pos cell hfits hne hcell hroom
        rw [wp_bind, wp_lift_ok hmid]
        refine (wp_splitLeaf_takes (e := (rowid, ⟨row, cell, chain⟩)) h happ.touches hview hnext
          hprev (hb _) hkept hchain hmid₀ (hlen ▸ hmidle) hleft hright).post ?_
        rintro r g' ⟨new, hstep, htakes⟩
        exact ⟨new, hstep, _, rfl, htakes⟩
    · have hshort' : row.length ≤ maxSingleRow := Nat.le_of_not_lt hshort
      rw [if_pos hshort', splitRoom_leafPage hfits hpos] at hroom
      have hne : 0 < (rowsOf cellOf l).length := by
        refine List.length_pos_iff.mpr fun hempty => hsize ?_
        rw [hempty, neededSize, numRows_leafPage (show Fits [] by decide),
          existingDataSize_leafPage (show Fits [] by decide)]
        simp only [maxSingleRow, pageSize, pageHeaderSize, checksumSize] at *
        simp only [List.length_nil, dataSize_nil]
        omega
      refine (wp_splitLeaf_takes (e := (rowid, ⟨row, row, []⟩)) h (.refl g []) hview hnext hprev
        (hb _) (hinline hshort') (by simp [chainPages]) (by omega) (by omega) hroom.1
        hroom.2).post ?_
      rintro r g' ⟨new, hstep, htakes⟩
      exact ⟨new, hstep, _, rfl, htakes⟩

end

end

end BoogyDb
