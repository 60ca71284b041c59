import BoogyDb.FindRows

/-!
# The rows that `find` collects

`find` collects rows along the leaf chain, or fetches the rows of ids that it has sorted.
Either way the rows come in the order of their ids (`RowTree.collected_ascending`), whatever
the filters, the bounds of the scan and the keys of the index are.
-/

namespace BoogyDb

open FencedTree StopLoop

section

variable [Crc32Fast] {file : PageFile} {state : TableMeta} {opts : FindOptions}
  {leaves : List (Leaf UInt64 StoredRow)} {branches : List ℕ} {found : Collected}

/-- Rows of the tree in the order in which they are stored. -/
def InLeafOrder (leaves : List (Leaf UInt64 StoredRow)) (rows : List Row) : Prop :=
  ∃ entries : List (UInt64 × StoredRow), entries.Sublist (contents leaves) ∧
    rows = entries.map toRow

omit [Crc32Fast] in
theorem InLeafOrder.nil : InLeafOrder leaves [] := ⟨[], List.nil_sublist _, rfl⟩

omit [Crc32Fast] in
theorem InLeafOrder.sublist {rows rows' : List Row} (h : InLeafOrder leaves rows)
    (hsub : rows'.Sublist rows) : InLeafOrder leaves rows' := by
  obtain ⟨entries, hentries, rfl⟩ := h
  obtain ⟨entries', hentries', rfl⟩ := List.sublist_map_iff.mp hsub
  exact ⟨entries', hentries'.trans hentries, rfl⟩

/-- Rows that are made of the bytes of entries in their order. -/
theorem RowTree.inLeafOrder (h : RowTree file state.rootPage leaves branches)
    {entries : List (UInt64 × StoredRow)} (hentries : entries.Sublist (contents leaves))
    {rows : List Row} (hrows : (entries.map rowOf).mapM (fun r => Row.fromRaw r.2) = .ok rows) :
    InLeafOrder leaves rows := by
  rw [h.fromRaw hentries.subset] at hrows
  exact ⟨entries, hentries, (Except.ok.inj hrows).symm⟩

theorem RowTree.inLeafOrder_unwrap (h : RowTree file state.rootPage leaves branches)
    {entries : List (UInt64 × StoredRow)} (hentries : entries.Sublist (contents leaves))
    {rows : List Row}
    (hrows : (entries.map rowOf).mapM (fun r => unwrap (Row.fromRaw r.2)) = .ok rows) :
    InLeafOrder leaves rows := by
  rw [h.unwrap_fromRaw hentries.subset] at hrows
  exact ⟨entries, hentries, (Except.ok.inj hrows).symm⟩

/-- The scan that evaluates the whole predicate. -/
theorem RowTree.findByScan_inLeafOrder (h : RowTree file state.rootPage leaves branches)
    (hclean : file.writeState = ⟨∅, 0⟩) (hfound : findByScan file state opts = .ok found) :
    InLeafOrder leaves found.rows := by
  unfold findByScan at hfound
  obtain ⟨raw, hraw, hrest⟩ := bind_eq_ok.mp hfound
  obtain ⟨rows, hrows, hcollected⟩ := bind_eq_ok.mp hrest
  rw [h.scanAllMatching hclean] at hraw
  obtain ⟨⟨acc, done⟩, hvisit, hacc⟩ := bind_eq_ok.mp hraw
  obtain ⟨entries, hentries, hout⟩ := visit_sublist id rowOf
    (fun acc e acc' done hstep => by
      unfold keepStep at hstep
      split at hstep
      · cases hstep
        exact .inl rfl
      · obtain ⟨keep, -, hstep⟩ := bind_eq_ok.mp hstep
        cases hstep
        cases keep with
        | true => exact .inr rfl
        | false => exact .inl rfl) hvisit
  obtain rfl : acc = raw := Except.ok.inj hacc
  rw [show acc = entries.map rowOf from hout] at hrows
  rw [← Except.ok.inj hcollected]
  exact h.inLeafOrder hentries hrows

/-- The scan for one filter. -/
theorem RowTree.findByFilter_inLeafOrder (h : RowTree file state.rootPage leaves branches)
    (hclean : file.writeState = ⟨∅, 0⟩) {f : Filter}
    (hfound : findByFilter file state opts f = .ok found) : InLeafOrder leaves found.rows := by
  unfold findByFilter at hfound
  cases hcol : state.colId f.column with
  | none =>
      rw [hcol] at hfound
      rw [← Except.ok.inj hfound]
      exact .nil
  | some colId =>
      rw [hcol] at hfound
      obtain ⟨⟨raw, count⟩, hraw, hrest⟩ := bind_eq_ok.mp hfound
      obtain ⟨rows, hrows, hcollected⟩ := bind_eq_ok.mp hrest
      rw [h.scanFiltered hclean] at hraw
      obtain ⟨⟨acc, done⟩, hvisit, hacc⟩ := bind_eq_ok.mp hraw
      obtain ⟨entries, hentries, hout⟩ := visit_sublist Prod.fst rowOf
        (fun acc e acc' done hstep => by
          unfold pageStep at hstep
          obtain ⟨keep, -, hstep⟩ := bind_eq_ok.mp hstep
          cases keep with
          | false =>
              cases hstep
              exact .inl rfl
          | true =>
              cases hstep
              dsimp only
              split
              · exact .inr rfl
              · exact .inl rfl) hvisit
      obtain rfl : acc = (raw, count) := Except.ok.inj hacc
      rw [show raw = entries.map rowOf from hout] at hrows
      rw [← Except.ok.inj hcollected]
      exact h.inLeafOrder_unwrap hentries hrows

theorem RowTree.findAll_inLeafOrder (h : RowTree file state.rootPage leaves branches)
    (hclean : file.writeState = ⟨∅, 0⟩) (hfound : findAll file state = .ok found) :
    InLeafOrder leaves found.rows := by
  unfold findAll at hfound
  rw [h.scanAll hclean, ok_bind] at hfound
  obtain ⟨rows, hrows, hcollected⟩ := bind_eq_ok.mp hfound
  rw [← Except.ok.inj hcollected]
  exact h.inLeafOrder_unwrap (List.Sublist.refl _) hrows

/-- Ids that an index returned are sorted before the rows are fetched. -/
theorem sorted_indexRowids {root : ℕ} {colType : ColumnType} {f : Filter} {need : Option ℕ}
    {rowids : List UInt64} (hids : indexRowids file root colType f need = .ok (some rowids)) :
    rowids.Pairwise (· ≤ ·) := by
  unfold indexRowids at hids
  split at hids
  · split at hids
    · cases hids
    · cases hids
    · obtain ⟨lists, -, hids⟩ := bind_eq_ok.mp hids
      cases hids
      exact (List.pairwise_insertionSort (· ≤ ·) _).sublist (List.destutter_sublist _ _)
  · split at hids
    · cases hids
    · -- the keys of a bounded and of an unbounded scan are treated alike
      have hsorted : ∀ keys : List (List UInt8), (do
          let rowids ← keys.mapM (extractRowid colType)
          pure (some (rowids.insertionSort (· ≤ ·))) : Result (Option (List UInt64))) =
            .ok (some rowids) → rowids.Pairwise (· ≤ ·) := by
        intro keys hkeys
        obtain ⟨ids, -, hids⟩ := bind_eq_ok.mp hkeys
        cases hids
        exact List.pairwise_insertionSort (· ≤ ·) _
      dsimp only at hids
      split at hids
      · obtain ⟨keys, -, hkeys⟩ := bind_eq_ok.mp hids
        exact hsorted keys hkeys
      · obtain ⟨keys, -, hkeys⟩ := bind_eq_ok.mp hids
        exact hsorted keys hkeys

/-- The rows of the ids that an index returned. -/
theorem RowTree.findByIndex_inLeafOrder (h : RowTree file state.rootPage leaves branches)
    (hclean : file.writeState = ⟨∅, 0⟩) {f : Filter}
    (hfound : findByIndex file state opts f = .ok found) : InLeafOrder leaves found.rows := by
  unfold findByIndex at hfound
  split at hfound
  · obtain ⟨rowids, hids, hrest⟩ := bind_eq_ok.mp hfound
    cases rowids with
    | none =>
        cases hrest
        exact .nil
    | some rowids =>
        obtain ⟨raw, hraw, hrest⟩ := bind_eq_ok.mp hrest
        rw [h.multiGetSorted hclean (sorted_indexRowids hids), rowsIn, List.filter_map,
          List.map_map] at hraw
        have hstored : raw.Sublist ((contents leaves).map fun e => e.2.row) := by
          rw [← Except.ok.inj hraw]
          exact List.filter_sublist.map _
        have hrows : ∀ passing : List (List UInt8), passing.Sublist raw →
            (passing.mapM Row.fromRaw >>= fun rows =>
              if opts.sort.isEmpty then pure ⟨opts.page rows, rows.length, true⟩
              else pure ⟨rows, rows.length, false⟩ : Result Collected) = .ok found →
                InLeafOrder leaves found.rows := by
          intro passing hpassing hrun
          obtain ⟨rows, hrows, hcollected⟩ := bind_eq_ok.mp hrun
          obtain ⟨entries, hentries, rfl⟩ := List.sublist_map_iff.mp (hpassing.trans hstored)
          have hleaf : InLeafOrder leaves rows := by
            refine h.inLeafOrder hentries ?_
            rw [Except.mapM_eq_ok_iff, List.forall₂_map_left_iff] at hrows ⊢
            exact hrows
          split at hcollected
          · rw [← Except.ok.inj hcollected]
            exact hleaf.sublist ((List.take_sublist _ _).trans (List.drop_sublist _ _))
          · rw [← Except.ok.inj hcollected]
            exact hleaf
        dsimp only at hrest
        split at hrest
        · obtain ⟨passing, hpassing, hrest⟩ := bind_eq_ok.mp hrest
          refine hrows passing ?_ hrest
          rw [(filterM_eq_ok_iff.mp hpassing).2]
          exact List.filter_sublist
        · exact hrows raw (List.Sublist.refl _) hrest
  · cases hfound

/-- **The collected rows are rows of the tree in leaf order.** -/
theorem RowTree.collectMatching_inLeafOrder (h : RowTree file state.rootPage leaves branches)
    (hclean : file.writeState = ⟨∅, 0⟩) (hfound : collectMatching file state opts = .ok found) :
    InLeafOrder leaves found.rows := by
  unfold collectMatching at hfound
  split at hfound
  · exact h.findByIndex_inLeafOrder hclean hfound
  · split at hfound
    · split at hfound
      · exact h.findByFilter_inLeafOrder hclean hfound
      · exact h.findByScan_inLeafOrder hclean hfound
    · exact h.findAll_inLeafOrder hclean hfound
    · exact h.findByScan_inLeafOrder hclean hfound

/-- **`find` collects rows in the order of their ids.** -/
theorem RowTree.collected_ascending (h : RowTree file state.rootPage leaves branches)
    (hclean : file.writeState = ⟨∅, 0⟩) (hfound : collectMatching file state opts = .ok found) :
    found.rows.Pairwise fun a b => a.id < b.id := by
  obtain ⟨entries, hentries, hrows⟩ := h.collectMatching_inLeafOrder hclean hfound
  rw [hrows, List.pairwise_map]
  exact h.tree.ordered.keysIncrease.sublist hentries

end

end BoogyDb
