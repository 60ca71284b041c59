import BoogyDb.StoredRows

/-!
# The table tree as a map

`Holds` through the operations of the tree: an insertion adds a row to the map, a
deletion removes one, a search looks one up and a scan lists them all in the
order of their ids.
-/

namespace BoogyDb

open Bytes BinarySearch Wp WriteGuard FencedTree

section

variable [Crc32Fast] {g g' : WriteGuard} {root : ℕ}
  {leaves leaves' pre post : List (Leaf UInt64 StoredRow)} {l : Leaf UInt64 StoredRow} {branches : List ℕ}
  {rowid : UInt64} {row : List UInt8}
  {m : UInt64 → Option (List UInt8)}

theorem RowTree.keysIncrease (h : RowTree g root leaves branches) :
    KeysIncrease (rowsIn leaves) := by
  rw [rowsIn, KeysIncrease, List.pairwise_map]
  exact h.tree.ordered.keysIncrease

/-! ## Inserting -/

/-- A tree whose leaf `l` took an entry still keeps its other entries. -/
theorem RowTree.replace {new : List (Leaf UInt64 StoredRow)} {e : UInt64 × StoredRow} {g₁ : WriteGuard}
    {root' : ℕ} {branches' : List ℕ} (h : RowTree g root (pre ++ l :: post) branches)
    (htree : TreeOf rowBranch cellOf g' root' (pre ++ new ++ post) branches')
    (htakes : Takes g e l new g₁)
    (ht : Touches g g₁ ((pre ++ l :: post).map Leaf.page)) (ht' : Touches g₁ g' branches)
    (hnew : ∀ p ∈ new.map Leaf.page, p = l.page ∨ g.bound ≤ p ∧ p < g₁.bound)
    (hbranches : ∀ p ∈ branches', p ∈ branches ∨ g₁.bound ≤ p) :
    RowTree g' root' (pre ++ new ++ post) branches' := by
  obtain ⟨pos, hpos, hcontents⟩ := htakes.contents
  have hl : l ∈ pre ++ l :: post := List.mem_append_right _ List.mem_cons_self
  -- an old entry, or the new one
  have hmem : ∀ x ∈ contents (pre ++ new ++ post), x = e ∨ x ∈ contents (pre ++ l :: post) := by
    intro x hx
    rw [contents_append, contents_append, hcontents] at hx
    rw [contents_append]
    rcases List.mem_append.mp hx with hx | hx
    · rcases List.mem_append.mp hx with hx | hx
      · exact .inr (List.mem_append_left _ hx)
      · rcases List.eq_or_mem_of_mem_insertIdx hx with rfl | hx
        · exact .inl rfl
        · exact .inr (List.mem_append_right _ (mem_contents List.mem_cons_self hx))
    · refine .inr (List.mem_append_right _ ?_)
      obtain ⟨q, hq, hx⟩ := List.mem_flatMap.mp hx
      exact mem_contents (List.mem_cons_of_mem _ hq) hx
  have hpages : ∀ p ∈ (pre ++ new ++ post).map Leaf.page,
      p ∈ (pre ++ l :: post).map Leaf.page ∨ p ∈ new.map Leaf.page := by
    intro p hp
    simp only [List.map_append, List.map_cons, List.mem_append, List.mem_cons] at hp ⊢
    tauto
  have hle := ht.bound_le
  have hbelow : ∀ p ∈ (pre ++ l :: post).map Leaf.page ++ branches, p < g.bound :=
    fun p hp => (h.tree.below p hp).1
  refine ⟨htree, fun x hx => ?_, fun x hx p hp => ?_⟩
  · rcases hmem x hx with rfl | hold
    · refine htakes.kept.congr fun p hp => ?_
      obtain ⟨hge, hlt, -⟩ := htakes.chain p hp
      refine ht'.view_eq p hlt fun hb => ?_
      exact absurd (hbelow p (List.mem_append_right _ hb)) (Nat.not_lt.mpr hge)
    · refine (h.kept x hold).congr fun p hp => ?_
      obtain ⟨hlt, hnot⟩ := h.apart x hold p hp
      rw [List.mem_append, not_or] at hnot
      rw [ht'.view_eq p (hlt.trans_le hle) hnot.2, ht.view_eq p hlt hnot.1]
  · have hbranch : ∀ q ∈ branches', q ∈ branches ∨ g₁.bound ≤ q := hbranches
    rcases hmem x hx with rfl | hold
    · obtain ⟨hge, hlt, hnot⟩ := htakes.chain p hp
      refine ⟨hlt.trans_le ht'.bound_le, fun hin => ?_⟩
      rcases List.mem_append.mp hin with hin | hin
      · rcases hpages p hin with hin | hin
        · exact absurd (hbelow p (List.mem_append_left _ hin)) (Nat.not_lt.mpr hge)
        · exact hnot hin
      · rcases hbranch p hin with hin | hin
        · exact absurd (hbelow p (List.mem_append_right _ hin)) (Nat.not_lt.mpr hge)
        · omega
    · obtain ⟨hlt, hnot⟩ := h.apart x hold p hp
      rw [List.mem_append, not_or] at hnot
      refine ⟨(hlt.trans_le hle).trans_le ht'.bound_le, fun hin => ?_⟩
      rcases List.mem_append.mp hin with hin | hin
      · rcases hpages p hin with hin | hin
        · exact hnot.1 hin
        · rcases hnew p hin with rfl | ⟨hge, -⟩
          · exact hnot.1 (List.mem_map_of_mem hl)
          · omega
      · rcases hbranch p hin with hin | hin
        · exact hnot.2 hin
        · omega

/-- **An insertion that finds room adds its row.** -/
theorem wp_insert_rows (h : RowTree g root leaves branches)
    (hroom : InsertRoom g root rowid row) (hstore : Storable rowid row) :
    wp (BTreeWriter.insert root rowid row)
      (fun root' g' => ∃ leaves' branches', RowTree g' root' leaves' branches' ∧
        (rowsIn leaves').Perm ((rowid, row) :: rowsIn leaves) ∧
        Touches g g' (leaves.map Leaf.page ++ branches) ∧
        ∀ p ∈ rowPages leaves' branches', p ∈ rowPages leaves branches ∨ g.bound ≤ p)
      (fun e g' => AllocFault e ∨ g' = g) g := by
  obtain ⟨pre₀, l₀, post₀, heq₀, hle₀, hlt₀, -, hreached⟩ := h.tree.descend_key rowid
    "B+ tree depth exceeds maximum in insert_recursive"
  rw [BTreeWriter.insert]
  refine wp.post (wp_insert_tree (P := fun l new g₁ => ∃ s, s.row = row ∧
    Takes g (rowid, s) l new g₁) (by decide) h.tree ?_ (.inr rfl) fun e g' he => .inl he) ?_
  · intro pre l post next prev heq hle hlt hnext hprev hview
    obtain ⟨rfl, rfl, rfl⟩ := located_unique (heq₀.symm.trans heq) hle₀ hlt₀ hle hlt
    subst heq
    refine wp_insertIntoLeaf_takes h hle hlt hnext hprev hview hstore fun pos hfind => ?_
    subst hnext hprev
    exact hroom _ _ pos hreached hfind
  · rintro root' g' ⟨pre, l, post, new, branches', g₁, rfl, htree, ⟨s, rfl, htakes⟩, ht, ht', hnew,
      hbranches⟩
    obtain ⟨pos, hpos, hcontents⟩ := htakes.contents
    have hperm := @contents_insertIdx_perm _ _ pre post new l (rowid, s) pos hpos hcontents
    have hrows : (rowsIn (pre ++ new ++ post)).Perm ((rowid, s.row) :: rowsIn (pre ++ l :: post)) :=
      hperm.map fun e : UInt64 × StoredRow => (e.1, e.2.row)
    refine ⟨_, _, h.replace htree htakes ht ht' hnew hbranches, hrows,
      (ht.mono (List.subset_append_left _ _)).trans (ht'.mono (List.subset_append_right _ _)), ?_⟩
    rintro p (hp | ⟨e, he, hp⟩)
    · rcases List.mem_append.mp hp with hp | hp
      · simp only [List.map_append, List.mem_append] at hp
        rcases hp with (hp | hp) | hp
        · exact .inl (.inl (by simp [hp]))
        · rcases hnew p hp with rfl | ⟨hge, -⟩
          · exact .inl (.inl (by simp))
          · exact .inr hge
        · exact .inl (.inl (by simp [hp]))
      · rcases hbranches p hp with hp | hge
        · exact .inl (.inl (List.mem_append_right _ hp))
        · exact .inr (ht.bound_le.trans hge)
    · rcases List.mem_cons.mp (hperm.mem_iff.mp he) with rfl | he
      · exact .inr (htakes.chain p hp).1
      · exact .inl (.inr ⟨e, he, hp⟩)

/-! ## Looking up -/

/-- A search in the leaf of the key finds the entry with the key, if there is one. -/
theorem findInsertionPoint_found {α : Type} {cell : UInt64 × α → List UInt8}
    {pre post : List (Leaf UInt64 α)} {l : Leaf UInt64 α}
    (h : CellTree cell g root (pre ++ l :: post) branches) {next prev : ℕ}
    (hle : l.fence ≤ (rowid : WithBot UInt64)) (hlt : ∀ q ∈ post, (rowid : WithBot UInt64) < q.fence) :
    (∃ pos, ∃ hpos : pos < l.entries.length, (l.entries[pos]).1 = rowid ∧
      BoogyDb.findInsertionPoint (leafPage (rowsOf cell l) next prev) rowid = .ok (pos, true)) ∨
    ∃ pos, (∀ s, (rowid, s) ∉ contents (pre ++ l :: post)) ∧
      BoogyDb.findInsertionPoint (leafPage (rowsOf cell l) next prev) rowid =
        .ok (pos, false) := by
  have hmem : l ∈ pre ++ l :: post := List.mem_append_right _ List.mem_cons_self
  obtain ⟨⟨pos, found⟩, hfind, hsplit⟩ := @CellTree.findInsertionPoint _ _ _ _ next prev _ _ _ _
    h hmem rowid
  have hkey : ∀ i (hi : i < l.entries.length),
      (l.entries.map Prod.fst).getD i default = l.entries[i].1 := by
    intro i hi
    rw [List.getD_eq_getElem?_getD, List.getElem?_map, List.getElem?_eq_getElem hi]
    rfl
  cases found with
  | true =>
      obtain ⟨hpos, heq⟩ := hsplit.hit rfl
      exact .inl ⟨pos, hpos, (hkey pos hpos).symm.trans heq, hfind⟩
  | false =>
      refine .inr ⟨pos, fun s hs => ?_, hfind⟩
      rw [h.tree.ordered.mem_contents_iff hle hlt] at hs
      obtain ⟨i, hi, heq⟩ := List.getElem_of_mem hs
      refine hsplit.ne_of_miss rfl (Nat.zero_le i) hi ?_
      rw [hkey i hi, heq]

omit [Crc32Fast] in
theorem mem_rowsIn_iff : (rowid, row) ∈ rowsIn leaves ↔
    ∃ s, (rowid, s) ∈ contents leaves ∧ s.row = row := by
  rw [rowsIn, List.mem_map]
  constructor
  · rintro ⟨⟨id, s⟩, hs, heq⟩
    obtain ⟨rfl, rfl⟩ := Prod.mk.inj heq
    exact ⟨s, hs, rfl⟩
  · rintro ⟨s, hs, rfl⟩
    exact ⟨_, hs, rfl⟩

omit [Crc32Fast] in
/-- The id that the map does not have is in no entry. -/
theorem Represents.eq_none {entries : List (UInt64 × List UInt8)} (h : Represents entries m)
    (hnot : ∀ row, (rowid, row) ∉ entries) : m rowid = none := by
  cases hm : m rowid with
  | none => rfl
  | some row => exact absurd ((h.mem_iff rowid row).mpr hm) (hnot row)

theorem numRows_leaf {α : Type} {cell : UInt64 × α → List UInt8} {pre post : List (Leaf UInt64 α)}
    {l : Leaf UInt64 α} (h : TreeOf rowBranch cell g root (pre ++ l :: post) branches)
    {next prev : ℕ} : (leafPage (rowsOf cell l) next prev).numRows = l.entries.length := by
  rw [numRows_leafPage h.chained.leafAt.fits, rowsOf, List.length_map]

/-- The search without its last step: the cell that is reached. -/
def searchCell (depthError : String) (read : ℕ → Result Page) (root : ℕ) (rowid : UInt64) :
    Result (Option (List UInt8)) := do
  let (_, page) ← descend depthError read (routeKey rowBranch rowid) maxTreeDepth root
  if page.numRows = 0 then pure none
  else
    let (pos, found) ← findInsertionPoint page rowid
    if found then
      let (start, stop) ← rowBounds page pos page.numRows
      if start < stop ∧ stop ≤ pageSize then
        let raw ← bytesOf page.data start stop
        pure (some raw)
      else pure none
    else pure none

omit [Crc32Fast] in
/-- A search reads the cell and puts its row together. -/
theorem searchTree_eq_searchCell (depthError : String) (read : ℕ → Result Page) (root : ℕ)
    (rowid : UInt64) : searchTree depthError read root rowid = (do
      match ← searchCell depthError read root rowid with
      | some raw => do
          let full ← reassembleRow read raw
          pure (some full)
      | none => pure none) := by
  rw [searchTree, searchCell]
  cases descend depthError read (routeKey rowBranch rowid) maxTreeDepth root with
  | error e => rfl
  | ok leaf =>
      obtain ⟨pageNo, page⟩ := leaf
      rw [ok_bind, ok_bind]
      dsimp only
      by_cases hzero : page.numRows = 0
      · rw [if_pos hzero, if_pos hzero]
        rfl
      rw [if_neg hzero, if_neg hzero]
      cases findInsertionPoint page rowid with
      | error e => rfl
      | ok res =>
          obtain ⟨pos, found⟩ := res
          rw [ok_bind, ok_bind]
          cases found with
          | false => rfl
          | true =>
              dsimp only
              rw [if_pos rfl, if_pos rfl]
              cases rowBounds page pos page.numRows with
              | error e => rfl
              | ok bounds =>
                  obtain ⟨start, stop⟩ := bounds
                  rw [ok_bind, ok_bind]
                  dsimp only
                  by_cases hb : start < stop ∧ stop ≤ pageSize
                  · rw [if_pos hb, if_pos hb]
                    cases bytesOf page.data start stop with
                    | error e => rfl
                    | ok raw => rfl
                  · rw [if_neg hb, if_neg hb]
                    rfl

/-- The cell of a row is reached under its id. -/
theorem searchCell_entry {α : Type} {cell : UInt64 × α → List UInt8}
    {leaves : List (Leaf UInt64 α)} {e : UInt64 × α} (h : CellTree cell g root leaves branches)
    (he : e ∈ contents leaves) (depthError : String) :
    searchCell depthError g.view root e.1 = .ok (some (cell e)) := by
  obtain ⟨pre, l, post, rfl, hle, hlt, -, hdescend⟩ := h.tree.descend_key e.1 depthError
  have hfits : Fits (rowsOf cell l) := h.tree.chained.leafAt.fits
  have hlen : (rowsOf cell l).length = l.entries.length := List.length_map _
  rw [searchCell, hdescend, ok_bind]
  dsimp only
  rw [numRows_leaf h.tree]
  rcases @findInsertionPoint_found _ _ _ _ e.1 _ _ _ _ _ h (nextPage post 0) (lastPage 0 pre)
    hle hlt with ⟨pos, hpos, hid, hfind⟩ | ⟨pos, hnot, hfind⟩
  · have hmem : l.entries[pos] ∈ contents (pre ++ l :: post) :=
      mem_contents (List.mem_append_right _ List.mem_cons_self) (List.getElem_mem hpos)
    have heq : l.entries[pos] = e := h.tree.ordered.keysIncrease.eq_of_mem hmem he hid
    have hcell : getElem (rowsOf cell l) pos (hlen ▸ hpos) = cell e := by
      rw [← heq]
      exact List.getElem_map _
    have hslice := @rowSlice_leafPage _ (rowsOf cell l) (nextPage post 0) (lastPage 0 pre) pos
      hfits (hlen ▸ hpos)
    have hbounds := @rowBounds_leafPage _ (rowsOf cell l) (nextPage post 0) (lastPage 0 pre) pos
      hfits (hlen ▸ hpos)
    have hlong := (extractId_eq_ok (h.ids e he)).1
    have hend := @rowEnd_le (rowsOf cell l) pos hfits (hlen ▸ hpos)
    rw [rowSlice, hbounds, ok_bind] at hslice
    rw [hcell] at hbounds hslice hend
    rw [hlen] at hbounds
    dsimp only at hslice
    rw [if_neg (by omega), hfind, ok_bind]
    dsimp only
    rw [if_pos rfl, hbounds, ok_bind]
    dsimp only
    rw [if_pos ⟨by omega, hend.trans (Nat.sub_le _ _)⟩, hslice, ok_bind, pure_eq_ok]
  · exact absurd he (hnot e.2)

/-- No cell is reached under another id. -/
theorem searchCell_none {α : Type} {cell : UInt64 × α → List UInt8}
    {leaves : List (Leaf UInt64 α)} (h : CellTree cell g root leaves branches)
    (hnot : ∀ s, (rowid, s) ∉ contents leaves) (depthError : String) :
    searchCell depthError g.view root rowid = .ok none := by
  obtain ⟨pre, l, post, rfl, hle, hlt, -, hdescend⟩ := h.tree.descend_key rowid depthError
  rw [searchCell, hdescend, ok_bind]
  dsimp only
  rcases @findInsertionPoint_found _ _ _ _ rowid _ _ _ _ _ h (nextPage post 0) (lastPage 0 pre)
    hle hlt with ⟨pos, hpos, hid, hfind⟩ | ⟨pos, -, hfind⟩
  · have hmem : l.entries[pos] ∈ contents (pre ++ l :: post) :=
      mem_contents (List.mem_append_right _ List.mem_cons_self) (List.getElem_mem hpos)
    subst hid
    exact absurd hmem (hnot l.entries[pos].2)
  · rw [hfind, ok_bind]
    dsimp only
    split <;> rfl

/-- **A search returns the row of its id.** -/
theorem searchTree_holds (h : Holds g root m) (depthError : String) (rowid : UInt64) :
    searchTree depthError g.view root rowid = .ok (m rowid) := by
  obtain ⟨leaves, branches, htree, hrep⟩ := h
  rw [searchTree_eq_searchCell]
  cases hm : m rowid with
  | some row =>
      obtain ⟨s, hs, rfl⟩ := mem_rowsIn_iff.mp ((hrep.mem_iff rowid row).mpr hm)
      have hcell : searchCell depthError g.view root rowid = .ok (some (cellOf (rowid, s))) :=
        searchCell_entry htree.cells hs depthError
      rw [hcell, ok_bind]
      dsimp only
      rw [(htree.kept _ hs).reassemble, ok_bind, pure_eq_ok]
  | none =>
      have hnot : ∀ s, (rowid, s) ∉ contents leaves := by
        intro s hs
        have hrow := (hrep.mem_iff rowid s.row).mp (mem_rowsIn_iff.mpr ⟨s, hs, rfl⟩)
        rw [hm] at hrow
        cases hrow
      rw [searchCell_none htree.cells hnot, ok_bind, pure_eq_ok]

/-! ## The rows of a leaf, one after the other -/

/-- A loop over a leaf, when the step goes through on every kept row. -/
theorem forRows_kept {β : Type} (h : RowTree g root leaves branches) (hl : l ∈ leaves)
    {next prev : ℕ} {step : β → ℕ → List UInt8 → Result β} {push : β → UInt64 × StoredRow → ℕ → β}
    (hstep : ∀ e ∈ l.entries, ∀ acc i, step acc i (cellOf e) = .ok (push acc e i)) (init : β) :
    forRows (leafPage (rowsOf cellOf l) next prev) step init =
      .ok (l.entries.zipIdx.foldl (fun acc x => push acc x.1 x.2) init) := by
  obtain ⟨pre, post, rfl⟩ := List.append_of_mem hl
  have hloop : ∀ (entries : List (UInt64 × StoredRow)) (k : ℕ) (acc : β), entries ⊆ l.entries →
      ((entries.map cellOf).zipIdx k).foldlM (fun acc x =>
        if x.1 = [] then (pure acc : Result β) else step acc x.2 x.1) acc =
        .ok ((entries.zipIdx k).foldl (fun acc x => push acc x.1 x.2) acc) := by
    intro entries
    induction entries with
    | nil => intro k acc _; rfl
    | cons e entries ih =>
        intro k acc hsub
        have he : e ∈ l.entries := hsub List.mem_cons_self
        have hne : cellOf e ≠ [] := by
          have := (extractId_eq_ok (h.kept e (mem_contents hl he)).extractId_cell).1
          exact List.ne_nil_of_length_pos (by omega)
        rw [List.map_cons, List.zipIdx_cons, List.foldlM_cons, List.zipIdx_cons, List.foldl_cons]
        dsimp only
        rw [if_neg hne, hstep e he, ok_bind, ih _ _ fun x hx => hsub (List.mem_cons_of_mem _ hx)]
  rw [forRows_leafPage h.tree.chained.leafAt.fits, rowsOf]
  exact hloop l.entries 0 init (List.Subset.refl _)

/-! ## Listing -/

omit [Crc32Fast] in
theorem foldl_push (entries : List (UInt64 × StoredRow)) (k : ℕ)
    (acc : List (UInt64 × List UInt8)) :
    (entries.zipIdx k).foldl (fun acc x => acc ++ [(x.1.1, x.1.2.row)]) acc =
      acc ++ entries.map fun e => (e.1, e.2.row) := by
  induction entries generalizing k acc with
  | nil => exact (List.append_nil acc).symm
  | cons e entries ih =>
      rw [List.zipIdx_cons, List.foldl_cons, ih, List.map_cons, List.append_assoc,
        List.singleton_append]

/-- The rows of one leaf, appended to what was collected. -/
theorem collectRows_leaf (h : RowTree g root leaves branches) (hl : l ∈ leaves) (next prev : ℕ)
    (acc : List (UInt64 × List UInt8)) :
    collectRows g.view (leafPage (rowsOf cellOf l) next prev) acc =
      .ok (acc ++ l.entries.map (fun e => (e.1, e.2.row)), false) := by
  have hrows := @forRows_kept _ _ _ _ _ _ (List (UInt64 × List UInt8)) h hl next prev
    (fun acc _ data => do
      let full ← reassembleRow g.view data
      let id ← extractId full
      pure (acc ++ [(id, full)])) (fun acc e _ => acc ++ [(e.1, e.2.row)])
    (fun e he acc i => by
      have hkept := h.kept e (mem_contents hl he)
      rw [hkept.reassemble, ok_bind, hkept.id, ok_bind, pure_eq_ok]) acc
  rw [collectRows, hrows, ok_bind, foldl_push, pure_eq_ok]

omit [Crc32Fast] in
theorem foldLeaves_collect (leaves : List (Leaf UInt64 StoredRow))
    (acc : List (UInt64 × List UInt8)) :
    foldLeaves (fun l acc => (acc ++ l.entries.map (fun e => (e.1, e.2.row)), false)) leaves acc =
      acc ++ rowsIn leaves := by
  induction leaves generalizing acc with
  | nil => exact (List.append_nil acc).symm
  | cons l leaves ih =>
      rw [foldLeaves, if_neg Bool.false_ne_true, ih, List.append_assoc, rowsIn, rowsIn]
      show acc ++ (_ ++ _) = acc ++ List.map _ (l.entries ++ contents leaves)
      rw [List.map_append]

/-- A walk from the first leaf lists the rows in the order of their ids. -/
theorem walkRows_holds (h : RowTree g root (l :: leaves) branches) {cycleError : String} {fuel : ℕ}
    (hfuel : leaves.length < fuel) :
    walkLeaves cycleError g.view (collectRows g.view) fuel l.page [] =
      .ok (rowsIn (l :: leaves)) := by
  have hbehind := @TreeOf.behind _ _ _ _ _ _ _ _ [] leaves l branches h.tree
  rw [walkLeaves_chained (f := fun l acc => (acc ++ l.entries.map (fun e => (e.1, e.2.row)), false))
    h.tree.chained (fun q hq next prev acc => collectRows_leaf h hq next prev acc) hbehind hfuel,
    foldLeaves_collect, List.nil_append]

/-! ## Deleting -/

/-- A leaf is rewritten: its entries are old ones, or kept without a chain. -/
theorem RowTree.rewrite {l' : Leaf UInt64 StoredRow}
    (h : RowTree g root (pre ++ l :: post) branches)
    (htree : TreeOf rowBranch cellOf g' root (pre ++ l' :: post) branches)
    (hpage : l'.page = l.page) (ht : Touches g g' [l.page])
    (hentries : ∀ e ∈ l'.entries, e ∈ l.entries ∨ (Kept g'.view e ∧ chainPages e = [])) :
    RowTree g' root (pre ++ l' :: post) branches := by
  have hl : l ∈ pre ++ l :: post := List.mem_append_right _ List.mem_cons_self
  have hpages : (pre ++ l' :: post).map Leaf.page = (pre ++ l :: post).map Leaf.page := by
    rw [List.map_append, List.map_append, List.map_cons, List.map_cons, hpage]
  have hmem : ∀ e ∈ contents (pre ++ l' :: post),
      e ∈ contents (pre ++ l :: post) ∨ (Kept g'.view e ∧ chainPages e = []) := by
    intro e he
    obtain ⟨q, hq, heq⟩ := List.mem_flatMap.mp he
    rcases List.mem_append.mp hq with hq | hq
    · exact .inl (mem_contents (List.mem_append_left _ hq) heq)
    · rcases List.mem_cons.mp hq with rfl | hq
      · exact (hentries e heq).imp_left fun he => mem_contents hl he
      · exact .inl (mem_contents (List.mem_append_right _ (List.mem_cons_of_mem _ hq)) heq)
  refine ⟨htree, fun e he => ?_, fun e he p hp => ?_⟩
  · rcases hmem e he with hold | ⟨hkept, -⟩
    · refine (h.kept e hold).congr fun p hp => ?_
      obtain ⟨hlt, hnot⟩ := h.apart e hold p hp
      refine ht.view_eq p hlt fun hin => hnot (List.mem_append_left _ ?_)
      rw [List.mem_singleton.mp hin]
      exact List.mem_map_of_mem hl
    · exact hkept
  · rcases hmem e he with hold | ⟨-, hnone⟩
    · obtain ⟨hlt, hnot⟩ := h.apart e hold p hp
      rw [hpages]
      exact ⟨hlt.trans_le ht.bound_le, hnot⟩
    · rw [hnone] at hp
      exact absurd hp List.not_mem_nil

/-- **A deletion takes the row of its id out of the map**, and says whether it was
there; it writes one leaf at most. -/
theorem wp_delete_rows {E : Fault → WriteGuard → Prop} (h : RowTree g root leaves branches)
    (hrep : Represents (rowsIn leaves) m) :
    wp (BTreeWriter.delete root rowid) (fun found g' => found = (m rowid).isSome ∧
      ∃ leaves', RowTree g' root leaves' branches ∧
        Represents (rowsIn leaves') (Function.update m rowid none) ∧
        Touches g g' (leaves.map Leaf.page ++ branches) ∧
        ∀ p ∈ rowPages leaves' branches, p ∈ rowPages leaves branches) E g := by
  obtain ⟨pre, l, post, rfl, hle, hlt, hview, hdescend⟩ := h.tree.descend_key rowid
    "B+ tree depth exceeds maximum in delete_recursive"
  have hmiss : (∀ s, (rowid, s) ∉ contents (pre ++ l :: post)) →
      false = (m rowid).isSome ∧ ∃ leaves', RowTree g root leaves' branches ∧
        Represents (rowsIn leaves') (Function.update m rowid none) ∧
        Touches g g ((pre ++ l :: post).map Leaf.page ++ branches) ∧
        ∀ p ∈ rowPages leaves' branches, p ∈ rowPages (pre ++ l :: post) branches := by
    intro hnot
    have hm : m rowid = none := Represents.eq_none hrep fun row hrow => by
      obtain ⟨s, hs, -⟩ := mem_rowsIn_iff.mp hrow
      exact hnot s hs
    rw [← hm, Function.update_eq_self, hm]
    exact ⟨rfl, _, h, hrep, .refl g _, fun _ => id⟩
  rw [BTreeWriter.delete, wp_bind, wp_readOnly, hdescend]
  dsimp only
  rw [numRows_leaf h.tree]
  rcases @findInsertionPoint_found _ _ _ _ rowid _ _ _ _ _ h.cells (nextPage post 0) (lastPage 0 pre)
    hle hlt with ⟨pos, hpos, hid, hfind⟩ | ⟨pos, hnot, hfind⟩
  · refine wp_ite (fun hzero => by omega) fun _ => ?_
    rw [wp_bind, wp_lift_ok hfind]
    dsimp only
    refine wp_ite (fun _ => ?_) fun hfalse => absurd rfl hfalse
    rw [wp_bind]
    refine (wp_removeInPlace_tree h.tree hview rfl rfl hpos).post ?_
    rintro _ g' ⟨htree', ht⟩
    have hrows : RowTree g' root (pre ++ shrunkLeaf l pos :: post) branches :=
      h.rewrite htree' rfl ht fun e he => .inl ((List.eraseIdx_sublist _ _).subset he)
    have hcontents := @contents_eraseIdx_perm _ _ pre post l (shrunkLeaf l pos) pos hpos rfl
    have hperm := hcontents.map fun e => (e.1, e.2.row)
    rw [List.map_cons, hid] at hperm
    have hm : m rowid = some l.entries[pos].2.row :=
      (hrep.mem_iff _ _).mp (hperm.mem_iff.mpr List.mem_cons_self)
    refine ⟨by rw [hm]; rfl, _, hrows, hrep.erase hperm hrows.keysIncrease,
      ht.mono (by simp), ?_⟩
    rintro p (hp | ⟨e, he, hp⟩)
    · refine .inl ?_
      rw [List.map_append, List.map_cons] at hp ⊢
      exact hp
    · exact .inr ⟨e, hcontents.mem_iff.mpr (List.mem_cons_of_mem _ he), hp⟩
  · refine wp_ite (fun _ => hmiss hnot) fun _ => ?_
    rw [wp_bind, wp_lift_ok hfind]
    dsimp only
    exact wp_ite (fun hf => absurd hf (by simp)) fun _ => hmiss hnot

theorem wp_delete_holds {E : Fault → WriteGuard → Prop} (h : Holds g root m) :
    wp (BTreeWriter.delete root rowid) (fun found g' => found = (m rowid).isSome ∧
      Holds g' root (Function.update m rowid none)) E g := by
  obtain ⟨leaves, branches, htree, hrep⟩ := h
  refine (wp_delete_rows htree hrep).post ?_
  rintro found g' ⟨hfound, leaves', htree', hrep', -⟩
  exact ⟨hfound, leaves', branches, htree', hrep'⟩

end

end BoogyDb
