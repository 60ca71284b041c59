import BoogyDb.RowScan

/-!
# Fetching rows one by one and in a batch

`search` descends to the leaf of one id; `multi_get_sorted` descends once, to the leaf of the
first of its ids, and walks the leaf chain from there.  On a tree whose cells have their keys
as row ids both put together the same cells (`CellTree.search`, `CellTree.multiGetSorted`), so
that a batch returns what the searches return, and fails as the first of them does that fails.
Nothing is asked of the cells besides their ids: their overflow chains may be broken.
-/

namespace BoogyDb

open WriteGuard FencedTree

section

variable [Crc32Fast] {α : Type} {cell : UInt64 × α → List UInt8} {file : PageFile} {root : ℕ}
  {leaves : List (Leaf UInt64 α)} {branches : List ℕ} {rowids : List UInt64}

/-- **A search puts together the cell of its id.** -/
theorem CellTree.search (h : CellTree cell file root leaves branches)
    (hclean : file.writeState = ⟨∅, 0⟩) (rowid : UInt64) :
    BTreeReader.search file root rowid =
      match entryOf (contents leaves) rowid with
      | some e => reassembleRow file.readPage (cell e) >>= fun full => .ok (some full)
      | none => .ok none := by
  have hinc := h.tree.ordered.keysIncrease
  rw [BTreeReader.search, ← view_eq_readPage hclean, searchTree_eq_searchCell]
  cases hfind : entryOf (contents leaves) rowid with
  | some e =>
      obtain ⟨hmem, rfl⟩ := (entryOf_eq_some_iff hinc).mp hfind
      rw [searchCell_entry h hmem, ok_bind]
      rfl
  | none =>
      have hnot : ∀ s, (rowid, s) ∉ contents leaves := fun s hs => by
        simpa using List.find?_eq_none.mp hfind _ hs
      rw [searchCell_none h hnot, ok_bind]
      rfl

/-- **A batch returns what the searches for its ids return**, and it returns when the cells of
the tree can be put together. -/
theorem multiGetSorted_eq_searches (h : CellTree cell file root leaves branches)
    (hclean : file.writeState = ⟨∅, 0⟩) (hsorted : rowids.Pairwise (· < ·)) :
    (BTreeReader.multiGetSorted file root rowids =
      rowids.mapM (BTreeReader.search file root) >>= fun rows => .ok rows.reduceOption) ∧
    ((∀ e ∈ contents leaves, ∃ row, reassembleRow file.readPage (cell e) = .ok row) →
      ∃ rows, rowids.mapM (BTreeReader.search file root) = .ok rows ∧
        BTreeReader.multiGetSorted file root rowids = .ok rows.reduceOption) := by
  have hinc := h.tree.ordered.keysIncrease
  have hsome : ∀ rowid e, entryOf (contents leaves) rowid = some e →
      BTreeReader.search file root rowid =
        reassembleRow file.readPage (cell e) >>= fun full => .ok (some full) := by
    intro rowid e he
    simp only [h.search hclean, he]
  have hnone : ∀ rowid, entryOf (contents leaves) rowid = none →
      BTreeReader.search file root rowid = .ok none := by
    intro rowid he
    simp only [h.search hclean, he]
  have heq : BTreeReader.multiGetSorted file root rowids =
      rowids.mapM (BTreeReader.search file root) >>= fun rows => .ok rows.reduceOption := by
    rw [h.multiGetSorted hclean (hsorted.imp le_of_lt), ← filterMap_entryOf hinc hsorted,
      Except.mapM_filterMap hsome hnone]
  refine ⟨heq, fun hwhole => ?_⟩
  have hall : ∀ rowid, ∃ row, BTreeReader.search file root rowid = .ok row := by
    intro rowid
    cases hfind : entryOf (contents leaves) rowid with
    | none => exact ⟨none, hnone rowid hfind⟩
    | some e =>
        obtain ⟨row, hrow⟩ := hwhole e (List.mem_of_find?_eq_some hfind)
        exact ⟨some row, by rw [hsome rowid e hfind, hrow, ok_bind]⟩
  choose found hfound using hall
  have hrows : rowids.mapM (BTreeReader.search file root) = .ok (rowids.map found) := by
    rw [Except.mapM_eq_ok_iff, List.forall₂_map_right_iff]
    exact List.forall₂_same.mpr fun rowid _ => hfound rowid
  exact ⟨_, hrows, by rw [heq, hrows, ok_bind]⟩

end

/-! ## A tree with an empty leaf -/

/-- A row without columns. -/
def emptyRowOf (id : UInt64) : List UInt8 := Bytes.leBytes 8 id.toNat ++ [0, 0]

/-- A file with three leaves below one branch page, the second of them empty. -/
def threeLeafFile [Crc32Fast] : PageFile :=
  let pages := [leafPage [emptyRowOf 3] 1 0, leafPage [] 2 0, leafPage [emptyRowOf 7] 0 1,
    rowBranch.branchPage [0, 1, 2] [4, 6]]
  ⟨pages, 4, pages.map some, ⟨∅, 0⟩⟩

/-- The leaves with the ids 3 and 7, and the empty one between them. -/
def threeLeaves : List (Leaf UInt64 (List UInt8)) :=
  [⟨⊥, 0, [(3, emptyRowOf 3)]⟩, ⟨(4 : UInt64), 1, []⟩, ⟨(6 : UInt64), 2, [(7, emptyRowOf 7)]⟩]

theorem ordered_threeLeaves : Ordered threeLeaves where
  sorted l hl := by
    simp only [threeLeaves, List.mem_cons, List.not_mem_nil, or_false] at hl
    rcases hl with rfl | rfl | rfl
    · exact ⟨List.pairwise_singleton _ _, fun _ _ => bot_le⟩
    · exact ⟨List.Pairwise.nil, nofun⟩
    · refine ⟨List.pairwise_singleton _ _, fun e he => ?_⟩
      obtain rfl := List.mem_singleton.mp he
      exact WithBot.coe_le_coe.mpr (by decide)
  before := by
    refine .cons (fun l hl => ?_) (.cons (fun l hl => ?_) (List.pairwise_singleton _ _))
    · simp only [List.mem_cons, List.not_mem_nil, or_false] at hl
      rcases hl with rfl | rfl
      · refine ⟨WithBot.bot_lt_coe _, fun e he => ?_⟩
        obtain rfl := List.mem_singleton.mp he
        exact WithBot.coe_lt_coe.mpr (by decide)
      · refine ⟨WithBot.bot_lt_coe _, fun e he => ?_⟩
        obtain rfl := List.mem_singleton.mp he
        exact WithBot.coe_lt_coe.mpr (by decide)
    · obtain rfl := List.mem_singleton.mp hl
      exact ⟨WithBot.coe_lt_coe.mpr (by decide), nofun⟩

/-- The leaves are a tree. -/
theorem cellTree_threeLeafFile : letI := crc32Ieee
    CellTree Prod.snd threeLeafFile 3 threeLeaves [3] := by
  let := crc32Ieee
  have hspans : Spans (IsBranch rowBranch (WriteGuard.view threeLeafFile)) 1
      ⟨⊥, 3, threeLeaves.map Leaf.span, [3]⟩ := by
    refine ⟨threeLeaves.map fun l => ⟨l.fence, l.page, [l.span], []⟩, [4, 6], ?_, ?_⟩
    · exact ⟨⟨rfl, rfl, by decide, by decide, fun _ _ => rfl⟩, rfl, by decide, rfl, rfl⟩
    · intro s hs
      obtain ⟨l, -, rfl⟩ := List.mem_map.mp hs
      exact ⟨rfl, rfl⟩
  refine ⟨⟨⟨1, hspans⟩, ?_, ordered_threeLeaves, by decide, ?_, by decide⟩, by decide⟩
  · exact ⟨⟨rfl, by decide⟩, ⟨rfl, by decide⟩, ⟨rfl, by decide⟩, trivial⟩
  · intro p hp
    have hlt : p < 4 := by
      revert p
      decide
    exact ⟨hlt, hlt.trans (by decide)⟩
/-- A batch of ids below, between and above the two ids of the tree, and of these. -/
theorem multiGetSorted_eq_searches_threeLeaves : letI := crc32Ieee
    ∃ rows, [1, 3, 5, 7, 9].mapM (BTreeReader.search threeLeafFile 3) = .ok rows ∧
      BTreeReader.multiGetSorted threeLeafFile 3 [1, 3, 5, 7, 9] = .ok rows.reduceOption := by
  let := crc32Ieee
  refine (multiGetSorted_eq_searches cellTree_threeLeafFile rfl (by decide)).2 fun e he => ?_
  have hplain : hasOverflow e.2 = false := by
    revert e
    decide
  refine ⟨e.2, ?_⟩
  rw [reassembleRow, hplain]
  rfl

end BoogyDb
