import BoogyDb.RowMap

/-!
# Bulk deletion and update

`delete_matching` and `update_matching` walk the leaf chain and rewrite its
leaves one by one.  Their predicate sees the cells: a row that is kept in an
overflow chain is matched by what stands in its cell.  On a tree that keeps its
rows both go through, and they do to the map what they do to the leaves.
-/

namespace BoogyDb

open Bytes BinarySearch Wp WriteGuard FencedTree BTreeWriter

section

variable [Crc32Fast] {g g' : WriteGuard} {root : ℕ}
  {leaves pre post : List (Leaf UInt64 StoredRow)} {l : Leaf UInt64 StoredRow} {branches : List ℕ}
  {pred : List UInt8 → Bool} {updater : List UInt8 → List UInt8}

/-! ## The walk -/

/-- **A walk that rewrites leaves**, from what it does to each of them. -/
theorem wp_rewriteLeaves_rows {β : Type} {cycleError : String}
    {visit : ℕ → Page → β → StateResult WriteGuard β} {f : Leaf UInt64 StoredRow →
      Leaf UInt64 StoredRow} {k : β → Leaf UInt64 StoredRow → β} {E : Fault → WriteGuard → Prop}
    {C : Leaf UInt64 StoredRow → Prop}
    (hvisit : ∀ g pre l post acc, C l → RowTree g root (pre ++ l :: post) branches →
      wp (visit l.page (leafPage (rowsOf cellOf l) (nextPage post 0) (lastPage 0 pre)) acc)
        (fun acc' g' => acc' = k acc l ∧ RowTree g' root (pre ++ f l :: post) branches ∧
          Touches g g' [l.page]) E g)
    {fuel : ℕ} (acc : β) (h : RowTree g root (pre ++ l :: post) branches)
    (hC : ∀ q ∈ l :: post, C q) (hfuel : post.length < fuel) :
    wp (rewriteLeaves cycleError visit fuel l.page acc)
      (fun acc' g' => acc' = (l :: post).foldl k acc ∧
        RowTree g' root (pre ++ (l :: post).map f) branches ∧
        Touches g g' ((l :: post).map Leaf.page)) E g := by
  induction post generalizing g pre l fuel acc with
  | nil =>
      obtain ⟨fuel, rfl⟩ := Nat.exists_eq_succ_of_ne_zero (Nat.ne_of_gt hfuel)
      rw [rewriteLeaves, wp_bind]
      refine wp_readPage h.tree.chained.leafAt.view ?_
      rw [wp_bind]
      refine (hvisit g pre l [] acc (hC l List.mem_cons_self) h).post ?_
      rintro acc' g' ⟨hacc, htree, ht⟩
      have hnext : (leafPage (rowsOf cellOf l) (nextPage ([] : List (Leaf UInt64 StoredRow)) 0)
          (lastPage 0 pre)).nextLeaf = 0 := nextLeaf_leafPage (Nat.two_pow_pos _)
      rw [hnext, if_pos rfl]
      exact ⟨hacc, htree, ht⟩
  | cons q post ih =>
      obtain ⟨fuel, rfl⟩ := Nat.exists_eq_succ_of_ne_zero (Nat.ne_of_gt (Nat.zero_lt_of_lt hfuel))
      obtain ⟨hne, hlimit⟩ := h.tree.behind q List.mem_cons_self
      rw [rewriteLeaves, wp_bind]
      refine wp_readPage h.tree.chained.leafAt.view ?_
      rw [wp_bind]
      refine (hvisit g pre l (q :: post) acc (hC l List.mem_cons_self) h).post ?_
      rintro acc' g' ⟨hacc, htree, ht⟩
      have hnext : (leafPage (rowsOf cellOf l) (nextPage (q :: post) 0) (lastPage 0 pre)).nextLeaf =
          q.page := nextLeaf_leafPage hlimit
      rw [hnext, if_neg hne]
      have hmove : pre ++ f l :: q :: post = (pre ++ [f l]) ++ q :: post := by simp
      rw [hmove] at htree
      refine (ih acc' htree (fun q hq => hC q (List.mem_cons_of_mem _ hq))
        (Nat.lt_of_succ_lt_succ hfuel)).post ?_
      rintro acc'' g'' ⟨hacc', htree', ht'⟩
      rw [List.append_assoc] at htree'
      refine ⟨by rw [hacc', hacc]; rfl, htree', ?_⟩
      rw [List.map_cons]
      exact (ht.mono (by simp)).trans (ht'.mono (List.subset_cons_self _ _))

/-! ## What the predicate matches -/

/-- The rows of a leaf whose cells satisfy `pred`. -/
def matchedIn (pred : List UInt8 → Bool) (l : Leaf UInt64 StoredRow) :
    List (UInt64 × List UInt8) :=
  (l.entries.filter fun e => pred (cellOf e)).map fun e => (e.1, e.2.row)

theorem hitRow_kept {v : WriteGuard} {e : UInt64 × StoredRow} (h : Kept v.view e) :
    hitRow v pred (cellOf e) = if pred (cellOf e) then some (e.1, e.2.row) else none := by
  have hne : cellOf e ≠ [] := by
    have := (extractId_eq_ok h.extractId_cell).1
    exact List.ne_nil_of_length_pos (by omega)
  rw [hitRow]
  cases hp : pred (cellOf e) with
  | false => simp
  | true =>
      rw [if_neg (by simp [hne]), h.reassemble]
      dsimp only
      rw [h.id]
      rfl

/-- The loop of a bulk operation goes through on kept rows. -/
theorem matchRows_kept (h : RowTree g root leaves branches) (hl : l ∈ leaves) {next prev : ℕ} :
    ∃ res, matchRows pred g (leafPage (rowsOf cellOf l) next prev) = .ok res :=
  ⟨_, @forRows_kept _ _ _ _ _ _ (List (UInt64 × List UInt8) × List ℕ) h hl next prev _
    (fun acc e i => if pred (cellOf e) then (acc.1 ++ [(e.1, e.2.row)], acc.2 ++ [i]) else acc)
    (fun e he acc i => by
      have hkept := h.kept e (mem_contents hl he)
      by_cases hp : pred (cellOf e) = true
      · rw [if_pos hp, if_pos hp, hkept.reassemble, ok_bind, hkept.id]
        rfl
      · rw [if_neg hp, if_neg hp, pure_eq_ok]) _⟩

theorem replaceRows_kept (h : RowTree g root leaves branches) (hl : l ∈ leaves) {next prev : ℕ} :
    ∃ res, replaceRows pred updater g (leafPage (rowsOf cellOf l) next prev) = .ok res :=
  ⟨_, @forRows_kept _ _ _ _ _ _ (List (ℕ × RowUpdate)) h hl next prev _
    (fun acc e i => if pred (cellOf e) then acc ++ [(i, e.1, e.2.row, updater e.2.row)] else acc)
    (fun e he acc i => by
      have hkept := h.kept e (mem_contents hl he)
      by_cases hp : pred (cellOf e) = true
      · rw [if_pos hp, if_pos hp, hkept.reassemble, ok_bind, hkept.id]
        rfl
      · rw [if_neg hp, if_neg hp, pure_eq_ok]) _⟩

/-- The cells of a leaf, each with what the bulk operations make of it. -/
theorem hitRow_cells (h : RowTree g root leaves branches) (hl : l ∈ leaves) :
    ∀ e ∈ l.entries, hitRow g pred (cellOf e) =
      if pred (cellOf e) then some (e.1, e.2.row) else none :=
  fun e he => hitRow_kept (h.kept e (mem_contents hl he))

/-! ## Deleting -/

/-- The leaf without the rows whose cells satisfy `pred`. -/
def keepLeaf (pred : List UInt8 → Bool) (l : Leaf UInt64 StoredRow) : Leaf UInt64 StoredRow :=
  ⟨l.fence, l.page, l.entries.filter fun e => !pred (cellOf e)⟩

theorem wp_deleteMatchingLeaf_rows {E : Fault → WriteGuard → Prop}
    (h : RowTree g root (pre ++ l :: post) branches) (deleted : List (UInt64 × List UInt8)) :
    wp (deleteMatchingLeaf pred l.page
        (leafPage (rowsOf cellOf l) (nextPage post 0) (lastPage 0 pre)) deleted)
      (fun deleted' g' => deleted' = deleted ++ matchedIn pred l ∧
        RowTree g' root (pre ++ keepLeaf pred l :: post) branches ∧ Touches g g' [l.page]) E g := by
  have hl : l ∈ pre ++ l :: post := List.mem_append_right _ List.mem_cons_self
  have hfits : Fits (rowsOf cellOf l) := h.tree.chained.leafAt.fits
  have hhit := @hitRow_cells _ _ _ _ l _ pred h hl
  obtain ⟨⟨matched, idxs⟩, hmatch⟩ := @matchRows_kept _ _ _ _ l _ pred h hl (nextPage post 0)
    (lastPage 0 pre)
  obtain ⟨hmatched, hidxs⟩ := matchRows_leafPage hfits hmatch
  have hmatched' : matched = matchedIn pred l := by
    rw [hmatched, rowsOf, List.filterMap_map, matchedIn, ← List.filterMap_eq_map,
      List.filterMap_filter]
    refine List.filterMap_congr fun e he => ?_
    rw [Function.comp_apply, hhit e he]
    split <;> rfl
  -- what the page keeps are the rows that the pass does not hit
  have hkeep : (rowsOf cellOf l).filter (fun row => !(hitRow g pred row).isSome) =
      rowsOf cellOf (keepLeaf pred l) := by
    rw [rowsOf, List.filter_map, rowsOf, keepLeaf]
    congr 1
    refine List.filter_congr fun e he => ?_
    rw [Function.comp_apply, hhit e he]
    cases pred (cellOf e) <;> rfl
  rw [deleteMatchingLeaf, wp_bind, wp_readOnly, hmatch]
  dsimp only
  rw [hmatched']
  refine wp_ite (fun hnone => ⟨rfl, ?_⟩) fun _ => ?_
  · -- nothing matches, so the leaf is what is kept of it
    have hempty : ∀ e ∈ l.entries, pred (cellOf e) = false := by
      intro e he
      by_contra hp
      have hp' : pred (cellOf e) = true := by simpa using hp
      have hmem : (e.1, e.2.row) ∈ matched := by
        rw [hmatched', matchedIn]
        exact List.mem_map_of_mem (List.mem_filter.mpr ⟨he, hp'⟩)
      have hlen := congrArg List.length (hidxs.symm.trans hnone)
      have hcell : cellOf e ∈ rowsOf cellOf l := List.mem_map_of_mem he
      obtain ⟨i, hi, hget⟩ := List.getElem_of_mem hcell
      have : i ∈ (List.range (rowsOf cellOf l).length).filter fun i =>
          (hitRow g pred ((rowsOf cellOf l).getD i [])).isSome := by
        refine List.mem_filter.mpr ⟨List.mem_range.mpr hi, ?_⟩
        rw [List.getD_eq_getElem?_getD, List.getElem?_eq_getElem hi, Option.getD_some, hget,
          hhit e he, if_pos hp']
        rfl
      rw [← hidxs, hnone] at this
      exact List.not_mem_nil this
    have hsame : keepLeaf pred l = l := by
      have hall : l.entries.filter (fun e => !pred (cellOf e)) = l.entries :=
        List.filter_eq_self.mpr fun e he => by rw [hempty e he]; rfl
      rw [keepLeaf, hall]
    rw [hsame]
    exact ⟨h, .refl g _⟩
  · obtain ⟨page', hwrite, hlays⟩ := @writeLeafWithoutMultiple_leafPage _ (rowsOf cellOf l)
      (nextPage post 0) (lastPage 0 pre) (rowsOf cellOf l) (nextPage post 0) (lastPage 0 pre) hfits
      (fun row => (hitRow g pred row).isSome)
      (fun i => (hitRow g pred ((rowsOf cellOf l).getD i [])).isSome) fun i hi => by
        rw [List.getD_eq_getElem?_getD, List.getElem?_eq_getElem hi, Option.getD_some]
    rw [wp_bind, numRows_leafPage hfits, hidxs]
    refine wp_modifyPage h.tree.chained.leafAt.view (by
      rw [hwrite, ok_bind, nextLeaf_leafPage h.tree.nextPage_lt,
        prevLeaf_leafPage h.tree.lastPage_lt, hlays.toLeafPage, pure_eq_ok]) fun g' hputs => ?_
    rw [hkeep] at hputs
    have hsub : (keepLeaf pred l).entries.Sublist l.entries := List.filter_sublist
    refine ⟨rfl, h.rewrite (h.tree.put_leaf rfl (h.tree.ordered.shrink rfl hsub) rfl rfl
      (hfits.sublist (hsub.map _)) hputs) rfl (.put hputs) fun e he => .inl (hsub.subset he),
      .put hputs⟩

/-! ## Updating -/

/-- The entry of a row that is replaced in place. -/
def updatedEntry (pred : List UInt8 → Bool) (updater : List UInt8 → List UInt8)
    (e : UInt64 × StoredRow) : UInt64 × StoredRow :=
  if pred (cellOf e) then (e.1, ⟨updater e.2.row, updater e.2.row, []⟩) else e

def updatedLeaf (pred : List UInt8 → Bool) (updater : List UInt8 → List UInt8)
    (l : Leaf UInt64 StoredRow) : Leaf UInt64 StoredRow :=
  ⟨l.fence, l.page, l.entries.map (updatedEntry pred updater)⟩

/-- The leaf after the update: a leaf that would not fit stays as it is. -/
def updateLeaf (pred : List UInt8 → Bool) (updater : List UInt8 → List UInt8)
    (l : Leaf UInt64 StoredRow) : Leaf UInt64 StoredRow :=
  if Fits (rowsOf cellOf (updatedLeaf pred updater l)) then updatedLeaf pred updater l else l

/-- The updates of a leaf. -/
def updatesIn (pred : List UInt8 → Bool) (updater : List UInt8 → List UInt8)
    (l : Leaf UInt64 StoredRow) : List RowUpdate :=
  (matchedIn pred l).map fun r => (r.1, r.2, updater r.2)

/-- The updates done in place, and those left to the caller. -/
def pushUpdates (pred : List UInt8 → Bool) (updater : List UInt8 → List UInt8)
    (acc : List RowUpdate × List RowUpdate) (l : Leaf UInt64 StoredRow) :
    List RowUpdate × List RowUpdate :=
  if Fits (rowsOf cellOf (updatedLeaf pred updater l)) then
    (acc.1 ++ updatesIn pred updater l, acc.2)
  else (acc.1, acc.2 ++ updatesIn pred updater l)

omit [Crc32Fast] in
theorem updatedEntry_fst (e : UInt64 × StoredRow) : (updatedEntry pred updater e).1 = e.1 := by
  rw [updatedEntry]
  split <;> rfl

omit [Crc32Fast] in
/-- Entries with the same keys are in the same order. -/
theorem updatedLeaf_ordered (h : Ordered (pre ++ l :: post)) :
    Ordered (pre ++ updatedLeaf pred updater l :: post) := by
  have hsorted := h.sorted l (List.mem_append_right _ List.mem_cons_self)
  have hbefore : ∀ q ∈ post, l.Before q := fun q hq =>
    List.rel_of_pairwise_cons (List.pairwise_append.mp h.before).2.1 hq
  have hkey : ∀ e ∈ (updatedLeaf pred updater l).entries, ∃ b ∈ l.entries, e.1 = b.1 := by
    intro e he
    obtain ⟨b, hb, rfl⟩ := List.mem_map.mp he
    exact ⟨b, hb, updatedEntry_fst b⟩
  have hnew : (updatedLeaf pred updater l).Sorted := by
    constructor
    · rw [KeysIncrease, updatedLeaf, List.pairwise_map]
      refine hsorted.increase.imp fun hab => ?_
      rwa [updatedEntry_fst, updatedEntry_fst]
    · intro e he
      obtain ⟨b, hb, heq⟩ := hkey e he
      rw [heq]
      exact hsorted.fenced b hb
  have hreplace := h.replace (ordered_singleton hnew)
    (fun n hn => by rw [List.mem_singleton.mp hn]; exact le_rfl)
    fun n hn q hq => by
      rw [List.mem_singleton.mp hn]
      refine ⟨(hbefore q hq).fence, fun e he => ?_⟩
      obtain ⟨b, hb, heq⟩ := hkey e he
      rw [heq]
      exact (hbefore q hq).entries b hb
  rwa [List.append_assoc] at hreplace

omit [Crc32Fast] in
/-- A row of a page that fits is not longer than the longest single row. -/
theorem length_le_of_fits {rows : List (List UInt8)} (h : Fits rows) {row : List UInt8}
    (hrow : row ∈ rows) : row.length ≤ maxSingleRow := by
  have hone : Fits [row] := h.sublist (List.singleton_sublist.mpr hrow)
  have := hone.le
  simp only [List.length_singleton, dataSize_cons, dataSize_nil, maxSingleRow, pageSize,
    pageHeaderSize, checksumSize] at *
  omega

theorem wp_updateMatchingLeaf_rows {E : Fault → WriteGuard → Prop}
    (h : RowTree g root (pre ++ l :: post) branches) (acc : List RowUpdate × List RowUpdate)
    (hstore : ∀ e ∈ l.entries, pred (cellOf e) = true → Storable e.1 (updater e.2.row)) :
    wp (updateMatchingLeaf pred updater l.page
        (leafPage (rowsOf cellOf l) (nextPage post 0) (lastPage 0 pre)) acc)
      (fun acc' g' => acc' = pushUpdates pred updater acc l ∧
        RowTree g' root (pre ++ updateLeaf pred updater l :: post) branches ∧
        Touches g g' [l.page]) E g := by
  have hl : l ∈ pre ++ l :: post := List.mem_append_right _ List.mem_cons_self
  have hfits : Fits (rowsOf cellOf l) := h.tree.chained.leafAt.fits
  have hview := h.tree.chained.leafAt.view
  have hhit := @hitRow_cells _ _ _ _ l _ pred h hl
  obtain ⟨replacements, hreplace⟩ := @replaceRows_kept _ _ _ _ l _ pred updater h hl
    (nextPage post 0) (lastPage 0 pre)
  have hreplacements := replaceRows_leafPage hfits hreplace
  have hpositions := @map_replacements (rowsOf cellOf l) (hitRow g pred) updater
  rw [← hreplacements] at hpositions
  have hupdates : replacements.map Prod.snd = updatesIn pred updater l := by
    rw [hreplacements, List.map_filterMap]
    have hzip : ((rowsOf cellOf l).zipIdx.filterMap fun x =>
        ((hitRow g pred x.1).map fun r => ((x.2, r.1, r.2, updater r.2) : ℕ × RowUpdate)).map
          Prod.snd) =
        ((rowsOf cellOf l).zipIdx.map Prod.fst).filterMap fun row =>
          (hitRow g pred row).map fun r => (r.1, r.2, updater r.2) := by
      rw [List.filterMap_map]
      refine List.filterMap_congr fun x _ => ?_
      rw [Function.comp_apply, Option.map_map]
      rfl
    rw [hzip, List.zipIdx_map_fst, rowsOf, List.filterMap_map, updatesIn, matchedIn, List.map_map,
      ← List.filterMap_eq_map, List.filterMap_filter]
    refine List.filterMap_congr fun e he => ?_
    rw [Function.comp_apply, hhit e he]
    split <;> rfl
  -- the rows that the pass hits are replaced in place, whether or not the page can hold them
  have hrows : ((rowsOf cellOf l).map fun row =>
      ((hitRow g pred row).map fun r => updater r.2).getD row) =
        rowsOf cellOf (updatedLeaf pred updater l) := by
    rw [rowsOf, List.map_map, rowsOf, updatedLeaf, List.map_map]
    refine List.map_congr_left fun e he => ?_
    rw [Function.comp_apply, Function.comp_apply, hhit e he, updatedEntry]
    split <;> rfl
  have hwrite := @writeLeafWithReplacements_leafPage _ (rowsOf cellOf l) (nextPage post 0)
    (lastPage 0 pre) (rowsOf cellOf l) (nextPage post 0) (lastPage 0 pre) hfits
    (fun row => (hitRow g pred row).map fun r => updater r.2)
    (fun i => (hitRow g pred ((rowsOf cellOf l).getD i [])).map fun r => updater r.2)
    (fun i hi => by
      rw [List.getD_eq_getElem?_getD, List.getElem?_eq_getElem hi, Option.getD_some])
    h.tree.nextPage_lt h.tree.lastPage_lt
  rw [hrows] at hwrite
  rw [updateMatchingLeaf, wp_bind, wp_readOnly, hreplace]
  dsimp only
  refine wp_ite (fun hnone => ?_) fun _ => ?_
  · -- nothing is replaced, so the updated leaf is the leaf
    rw [hnone, List.map_nil] at hupdates
    have hempty : ∀ e ∈ l.entries, ¬ pred (cellOf e) = true := by
      intro e he hp
      have hmem : (e.1, e.2.row, updater e.2.row) ∈ updatesIn pred updater l := by
        rw [updatesIn, matchedIn, List.map_map]
        exact List.mem_map.mpr ⟨e, List.mem_filter.mpr ⟨he, hp⟩, rfl⟩
      rw [← hupdates] at hmem
      exact List.not_mem_nil hmem
    have hsame : updatedLeaf pred updater l = l := by
      have hall : l.entries.map (updatedEntry pred updater) = l.entries := by
        conv_rhs => rw [← List.map_id l.entries]
        refine List.map_congr_left fun e he => ?_
        rw [updatedEntry, if_neg (hempty e he)]
        rfl
      rw [updatedLeaf, hall]
    refine ⟨?_, ?_, .refl g _⟩
    · rw [pushUpdates, hsame, if_pos hfits, ← hupdates, List.append_nil]
    · rw [updateLeaf, hsame, ite_self]
      exact h
  · rw [wp_bind]
    refine wp_readPage hview ?_
    rw [wp_bind, numRows_leafPage hfits, hpositions, wp_lift_ok hwrite, hupdates]
    -- a page that the new rows overrun is left, and its rows are put in again later
    by_cases hfits' : Fits (rowsOf cellOf (updatedLeaf pred updater l))
    · rw [if_pos hfits']
      dsimp only
      rw [wp_bind, updateLeaf, if_pos hfits', pushUpdates, if_pos hfits']
      refine wp_putPage fun g' hputs => ⟨rfl, ?_, .put hputs⟩
      refine h.rewrite (h.tree.put_leaf rfl (updatedLeaf_ordered h.tree.ordered) rfl rfl hfits'
        hputs) rfl (.put hputs) fun e he => ?_
      obtain ⟨b, hb, rfl⟩ := List.mem_map.mp he
      have hlen := length_le_of_fits hfits' (List.mem_map_of_mem he)
      rw [updatedEntry] at hlen ⊢
      by_cases hp : pred (cellOf b) = true
      · rw [if_pos hp] at hlen ⊢
        have hs := hstore b hb hp
        exact .inr ⟨⟨.inline (hs.plain hlen), hs.id, hs.length_le⟩, rfl⟩
      · rw [if_neg hp]
        exact .inl hb
    · rw [if_neg hfits']
      dsimp only
      rw [wp_bind, updateLeaf, if_neg hfits', pushUpdates, if_neg hfits']
      refine wp_putPage fun g' hputs => ⟨rfl, ?_, .put hputs⟩
      exact h.rewrite (h.tree.put_leaf rfl h.tree.ordered rfl rfl hfits hputs) rfl (.put hputs)
        fun e he => .inl he

/-! ## The whole tree -/

omit [Crc32Fast] in
/-- The bound on the pages, when it can be computed. -/
theorem maxPages_cases (g : WriteGuard) :
    maxPages g = .ok g.bound ∨ maxPages g = .error .overflow := by
  rw [maxPages]
  split
  · exact .inr rfl
  · exact .inl rfl

/-- The frame of a bulk operation: the leftmost leaf, the bound, the walk. -/
theorem wp_bulk_rows {β : Type} {cycleError : String}
    {visit : ℕ → Page → β → StateResult WriteGuard β}
    {f : Leaf UInt64 StoredRow → Leaf UInt64 StoredRow} {k : β → Leaf UInt64 StoredRow → β}
    {C : Leaf UInt64 StoredRow → Prop}
    (hvisit : ∀ g pre l post acc, C l → RowTree g root (pre ++ l :: post) branches →
      wp (visit l.page (leafPage (rowsOf cellOf l) (nextPage post 0) (lastPage 0 pre)) acc)
        (fun acc' g' => acc' = k acc l ∧ RowTree g' root (pre ++ f l :: post) branches ∧
          Touches g g' [l.page]) (fun _ _ => False) g)
    (acc : β) (h : RowTree g root leaves branches) (hC : ∀ q ∈ leaves, C q) :
    wp (do
        let firstLeaf ← readOnly fun guard => findLeftmostLeafW guard root
        let maxPages ← readOnly maxPages
        rewriteLeaves cycleError visit maxPages firstLeaf acc)
      (fun acc' g' => acc' = leaves.foldl k acc ∧ RowTree g' root (leaves.map f) branches ∧
        Touches g g' (leaves.map Leaf.page))
      (fun e g' => e = .overflow ∧ g' = g) g := by
  obtain ⟨l, rest, page, rfl, hdescend⟩ := h.tree.descend_leftmost
    "B+ tree depth exceeds maximum in find_leftmost_leaf_w"
  rw [wp_bind, wp_readOnly, findLeftmostLeafW, hdescend, ok_bind]
  dsimp only [pure_eq_ok]
  rw [wp_bind, wp_readOnly]
  rcases maxPages_cases g with hmax | hmax
  · rw [hmax]
    have hlen := h.tree.length_le
    rw [List.length_cons] at hlen
    have h' : RowTree g root ([] ++ l :: rest) branches := h
    exact (wp_rewriteLeaves_rows hvisit acc h' hC (by omega)).mono (fun _ _ => id)
      fun _ _ => False.elim
  · rw [hmax]
    exact ⟨rfl, rfl⟩

omit [Crc32Fast] in
theorem foldl_append {β : Type} (f : Leaf UInt64 StoredRow → List β)
    (leaves : List (Leaf UInt64 StoredRow)) (acc : List β) :
    leaves.foldl (fun acc l => acc ++ f l) acc = acc ++ leaves.flatMap f := by
  induction leaves generalizing acc with
  | nil => exact (List.append_nil acc).symm
  | cons l leaves ih => rw [List.foldl_cons, ih, List.flatMap_cons, List.append_assoc]

/-- **A bulk deletion keeps the rows whose cells do not satisfy the predicate**, and
returns the others. -/
theorem wp_deleteMatching_rows (h : RowTree g root leaves branches) :
    wp (deleteMatching root pred)
      (fun deleted g' => deleted = leaves.flatMap (matchedIn pred) ∧
        RowTree g' root (leaves.map (keepLeaf pred)) branches ∧
        Touches g g' (leaves.map Leaf.page))
      (fun e g' => e = .overflow ∧ g' = g) g := by
  refine (wp_bulk_rows (C := fun _ => True) (k := fun acc l => acc ++ matchedIn pred l)
    (fun _ _ _ _ acc _ h => wp_deleteMatchingLeaf_rows h acc) [] h fun _ _ => trivial).post ?_
  rintro deleted g' ⟨hdeleted, htree, ht⟩
  rw [foldl_append, List.nil_append] at hdeleted
  exact ⟨hdeleted, htree, ht⟩

/-- The updates that a leaf takes in place. -/
def updatesInPlace (pred : List UInt8 → Bool) (updater : List UInt8 → List UInt8)
    (l : Leaf UInt64 StoredRow) : List RowUpdate :=
  if Fits (rowsOf cellOf (updatedLeaf pred updater l)) then updatesIn pred updater l else []

/-- The updates that a leaf leaves to the caller. -/
def updatesLeft (pred : List UInt8 → Bool) (updater : List UInt8 → List UInt8)
    (l : Leaf UInt64 StoredRow) : List RowUpdate :=
  if Fits (rowsOf cellOf (updatedLeaf pred updater l)) then [] else updatesIn pred updater l

omit [Crc32Fast] in
theorem foldl_pushUpdates (leaves : List (Leaf UInt64 StoredRow))
    (acc : List RowUpdate × List RowUpdate) :
    (leaves.foldl (pushUpdates pred updater) acc).1 =
        acc.1 ++ leaves.flatMap (updatesInPlace pred updater) ∧
      (leaves.foldl (pushUpdates pred updater) acc).2 =
        acc.2 ++ leaves.flatMap (updatesLeft pred updater) := by
  induction leaves generalizing acc with
  | nil => exact ⟨(List.append_nil _).symm, (List.append_nil _).symm⟩
  | cons l leaves ih =>
      obtain ⟨hdone, hleft⟩ := ih (pushUpdates pred updater acc l)
      rw [List.foldl_cons, hdone, hleft, List.flatMap_cons, List.flatMap_cons, pushUpdates,
        updatesInPlace, updatesLeft]
      split
      · exact ⟨List.append_assoc _ _ _, rfl⟩
      · exact ⟨rfl, List.append_assoc _ _ _⟩

theorem wp_updateMatching_rows (h : RowTree g root leaves branches)
    (hstore : ∀ e ∈ contents leaves, pred (cellOf e) = true → Storable e.1 (updater e.2.row)) :
    wp (updateMatching root pred updater)
      (fun res g' => res.1 = leaves.flatMap (updatesInPlace pred updater) ∧
        res.2 = leaves.flatMap (updatesLeft pred updater) ∧
        RowTree g' root (leaves.map (updateLeaf pred updater)) branches ∧
        Touches g g' (leaves.map Leaf.page))
      (fun e g' => e = .overflow ∧ g' = g) g := by
  refine (wp_bulk_rows (C := fun l => ∀ e ∈ l.entries, pred (cellOf e) = true →
      Storable e.1 (updater e.2.row))
    (fun _ _ _ _ acc hC h => wp_updateMatchingLeaf_rows h acc hC) ([], []) h
    fun q hq e he => hstore e (mem_contents hq he)).post ?_
  rintro res g' ⟨hres, htree, ht⟩
  obtain ⟨hdone, hleft⟩ := foldl_pushUpdates leaves (([], []) : List RowUpdate × List RowUpdate)
  rw [hres, hdone, hleft]
  exact ⟨List.nil_append _, List.nil_append _, htree, ht⟩

/-! ## On the map -/

variable {m : UInt64 → Option (List UInt8)}

/-- The map without the rows of a list. -/
def removeRows (m : UInt64 → Option (List UInt8)) (deleted : List (UInt64 × List UInt8)) :
    UInt64 → Option (List UInt8) :=
  fun id => if id ∈ deleted.map Prod.fst then none else m id

/-- The map with the new bytes of the rows of a list. -/
def applyUpdates (m : UInt64 → Option (List UInt8)) (updates : List RowUpdate) :
    UInt64 → Option (List UInt8) :=
  fun id => match updates.find? fun u => u.1 == id with
    | some u => some u.2.2
    | none => m id

omit [Crc32Fast] in
theorem mem_flatMap_matchedIn {r : UInt64 × List UInt8} : r ∈ leaves.flatMap (matchedIn pred) ↔
    ∃ e ∈ contents leaves, pred (cellOf e) = true ∧ (e.1, e.2.row) = r := by
  simp only [List.mem_flatMap, matchedIn, List.mem_map, List.mem_filter, contents]
  constructor
  · rintro ⟨l, hl, e, ⟨he, hp⟩, rfl⟩
    exact ⟨e, ⟨l, hl, he⟩, hp, rfl⟩
  · rintro ⟨e, ⟨l, hl, he⟩, hp, rfl⟩
    exact ⟨l, hl, e, ⟨he, hp⟩, rfl⟩

omit [Crc32Fast] in
theorem contents_keepLeaf : contents (leaves.map (keepLeaf pred)) =
    (contents leaves).filter fun e => !pred (cellOf e) := by
  induction leaves with
  | nil => rfl
  | cons l leaves ih =>
      rw [List.map_cons]
      show (keepLeaf pred l).entries ++ contents (leaves.map (keepLeaf pred)) =
        (l.entries ++ contents leaves).filter _
      rw [ih, List.filter_append]
      rfl

omit [Crc32Fast] in
/-- Entries of one tree with the same id are the same. -/
theorem Ordered.entry_unique (h : Ordered leaves) {e e' : UInt64 × StoredRow}
    (he : e ∈ contents leaves) (he' : e' ∈ contents leaves) (hid : e.1 = e'.1) : e = e' :=
  h.keysIncrease.eq_of_mem he he' hid

/-- **On the map, a bulk deletion removes the rows it returns.** -/
theorem RowTree.removeRows (h : RowTree g root leaves branches) (hrep : Represents (rowsIn leaves) m)
    (h' : RowTree g' root (leaves.map (keepLeaf pred)) branches) :
    Represents (rowsIn (leaves.map (keepLeaf pred)))
      (BoogyDb.removeRows m (leaves.flatMap (matchedIn pred))) := by
  refine ⟨h'.keysIncrease, fun id row => ?_⟩
  have hids : id ∈ (leaves.flatMap (matchedIn pred)).map Prod.fst ↔
      ∃ e ∈ contents leaves, pred (cellOf e) = true ∧ e.1 = id := by
    rw [List.mem_map]
    constructor
    · rintro ⟨r, hr, rfl⟩
      obtain ⟨e, he, hp, rfl⟩ := mem_flatMap_matchedIn.mp hr
      exact ⟨e, he, hp, rfl⟩
    · rintro ⟨e, he, hp, rfl⟩
      exact ⟨_, mem_flatMap_matchedIn.mpr ⟨e, he, hp, rfl⟩, rfl⟩
  rw [mem_rowsIn_iff, contents_keepLeaf, BoogyDb.removeRows]
  constructor
  · rintro ⟨s, hs, rfl⟩
    obtain ⟨hmem, hp⟩ := List.mem_filter.mp hs
    rw [if_neg, ← hrep.mem_iff, mem_rowsIn_iff]
    · exact ⟨s, hmem, rfl⟩
    · rw [hids]
      rintro ⟨e, he, hpe, hid⟩
      rw [Ordered.entry_unique h.tree.ordered he hmem hid] at hpe
      simp [hpe] at hp
  · intro hm
    split at hm
    · cases hm
    · next hnot =>
        obtain ⟨s, hs, rfl⟩ := mem_rowsIn_iff.mp ((hrep.mem_iff _ _).mpr hm)
        refine ⟨s, List.mem_filter.mpr ⟨hs, ?_⟩, rfl⟩
        by_contra hp
        exact hnot (hids.mpr ⟨_, hs, by simpa using hp, rfl⟩)

omit [Crc32Fast] in
theorem mem_updatesInPlace {u : RowUpdate} : u ∈ leaves.flatMap (updatesInPlace pred updater) ↔
    ∃ l ∈ leaves, Fits (rowsOf cellOf (updatedLeaf pred updater l)) ∧
      ∃ e ∈ l.entries, pred (cellOf e) = true ∧ (e.1, e.2.row, updater e.2.row) = u := by
  simp only [List.mem_flatMap, updatesInPlace]
  refine exists_congr fun l => and_congr_right fun _ => ?_
  by_cases hfits : Fits (rowsOf cellOf (updatedLeaf pred updater l))
  · rw [if_pos hfits]
    simp only [updatesIn, matchedIn, List.map_map, List.mem_map, List.mem_filter, hfits, true_and,
      and_assoc]
    rfl
  · rw [if_neg hfits]
    simp [hfits]

/-- **On the map, a bulk update gives the rows it returns their new bytes.** -/
theorem RowTree.applyUpdates (hrep : Represents (rowsIn leaves) m)
    (h' : RowTree g' root (leaves.map (updateLeaf pred updater)) branches) :
    Represents (rowsIn (leaves.map (updateLeaf pred updater)))
      (BoogyDb.applyUpdates m (leaves.flatMap (updatesInPlace pred updater))) := by
  refine ⟨h'.keysIncrease, fun id row => ?_⟩
  -- an entry of a leaf, in the leaf after the update
  have hmoved : ∀ l ∈ leaves, ∀ e ∈ l.entries,
      (if Fits (rowsOf cellOf (updatedLeaf pred updater l)) then updatedEntry pred updater e
        else e) ∈ contents (leaves.map (updateLeaf pred updater)) := by
    intro l hl e he
    refine mem_contents (List.mem_map_of_mem hl) ?_
    rw [updateLeaf]
    split
    · exact List.mem_map_of_mem he
    · exact he
  rw [BoogyDb.applyUpdates]
  cases hfind : (leaves.flatMap (updatesInPlace pred updater)).find? fun u => u.1 == id with
  | some u =>
      dsimp only
      have hid : u.1 = id := by simpa using List.find?_some hfind
      obtain ⟨l, hl, hfits, e, he, hp, rfl⟩ := mem_updatesInPlace.mp (List.mem_of_find?_eq_some hfind)
      have hmem := hmoved l hl e he
      rw [if_pos hfits, updatedEntry, if_pos hp] at hmem
      dsimp only at hid ⊢
      rw [mem_rowsIn_iff]
      constructor
      · rintro ⟨s, hs, rfl⟩
        have heq := Ordered.entry_unique h'.tree.ordered hs hmem hid.symm
        rw [(Prod.mk.inj heq).2]
      · intro heq
        rw [← hid, ← Option.some.inj heq]
        exact ⟨_, hmem, rfl⟩
  | none =>
      dsimp only
      rw [List.find?_eq_none] at hfind
      have hstay : ∀ l ∈ leaves, ∀ e ∈ l.entries, e.1 = id →
          e ∈ contents (leaves.map (updateLeaf pred updater)) := by
        intro l hl e he hid
        have hmem := hmoved l hl e he
        by_cases hfits : Fits (rowsOf cellOf (updatedLeaf pred updater l))
        · rw [if_pos hfits, updatedEntry] at hmem
          split at hmem
          · next hp =>
              have := hfind _ (mem_updatesInPlace.mpr ⟨l, hl, hfits, e, he, hp, rfl⟩)
              simp [hid] at this
          · exact hmem
        · rwa [if_neg hfits] at hmem
      rw [mem_rowsIn_iff, ← hrep.mem_iff, mem_rowsIn_iff]
      constructor
      · rintro ⟨s, hs, rfl⟩
        obtain ⟨l', hl', hs⟩ := List.mem_flatMap.mp hs
        obtain ⟨l, hl, rfl⟩ := List.mem_map.mp hl'
        -- the entry comes from one with the same id, which stayed as it was
        have hold : ∃ e ∈ l.entries, e.1 = id := by
          rw [updateLeaf] at hs
          split at hs
          · obtain ⟨e, he, heq⟩ := List.mem_map.mp hs
            exact ⟨e, he, by rw [← @updatedEntry_fst pred updater e, heq]⟩
          · exact ⟨_, hs, rfl⟩
        obtain ⟨e, he, hid⟩ := hold
        have hnew := hstay l hl e he hid
        have heq := Ordered.entry_unique h'.tree.ordered hnew (mem_contents hl' hs) hid
        rw [heq] at he
        exact ⟨s, mem_contents hl he, rfl⟩
      · rintro ⟨s, hs, rfl⟩
        obtain ⟨l, hl, hs⟩ := List.mem_flatMap.mp hs
        exact ⟨s, hstay l hl _ hs rfl, rfl⟩

theorem wp_deleteMatching_holds (h : Holds g root m) :
    wp (deleteMatching root pred) (fun deleted g' => Holds g' root (removeRows m deleted))
      (fun e g' => e = .overflow ∧ g' = g) g := by
  obtain ⟨leaves, branches, htree, hrep⟩ := h
  refine (wp_deleteMatching_rows htree).post ?_
  rintro deleted g' ⟨rfl, htree', -⟩
  exact ⟨_, _, htree', htree.removeRows hrep htree'⟩

theorem wp_updateMatching_holds (h : Holds g root m)
    (hstore : ∀ id row, m id = some row → Storable id (updater row)) :
    wp (updateMatching root pred updater) (fun res g' => Holds g' root (applyUpdates m res.1))
      (fun e g' => e = .overflow ∧ g' = g) g := by
  obtain ⟨leaves, branches, htree, hrep⟩ := h
  have hstore' : ∀ e ∈ contents leaves, pred (cellOf e) = true →
      Storable e.1 (updater e.2.row) := fun e he _ =>
    hstore e.1 e.2.row ((hrep.mem_iff _ _).mp (mem_rowsIn_iff.mpr ⟨e.2, he, rfl⟩))
  refine (wp_updateMatching_rows htree hstore').post ?_
  rintro ⟨updated, left⟩ g' ⟨hupdated, -, htree', -⟩
  dsimp only at hupdated ⊢
  rw [hupdated]
  exact ⟨_, _, htree', RowTree.applyUpdates hrep htree'⟩

end

end BoogyDb
