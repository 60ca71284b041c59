import BoogyDb.LeafPage
import BoogyDb.Lib.Except
import Mathlib.Data.List.Forall2
import Mathlib.Data.List.Nodup

/-!
# The leaf rewriters

The five rewriters of `btree.rs`, each as `rebuildLeaf` on its own row sources;
`index.rs` repeats four of them on length-prefixed entries.  Each is a list
operation on the rows of a leaf page: insertion, a window of the list with the
new row inserted, erasure, filtering and replacement.
-/

namespace BoogyDb

open Bytes

/-- `write_leaf_with_insert`: the chain pointers of the snapshot are kept. -/
def writeLeafWithInsert (page snapshot : Page) (oldCount insertPos : ℕ) (newRow : List UInt8) :
    Result Page :=
  let total := oldCount + 1
  rebuildLeaf page snapshot oldCount total snapshot.nextLeaf snapshot.prevLeaf
    ((List.range total).map (virtualSource insertPos newRow))

/-- `write_leaf_range`: positions `[rangeStart, rangeEnd)` of the old rows with
the new row inserted. -/
def writeLeafRange (page snapshot : Page) (oldCount insertPos : ℕ) (newRow : List UInt8)
    (rangeStart rangeEnd : ℕ) : Result Page :=
  let count := rangeEnd - rangeStart
  rebuildLeaf page snapshot oldCount count 0 0
    ((List.range' rangeStart count).map (virtualSource insertPos newRow))

/-- `write_leaf_without`. -/
def writeLeafWithout (page snapshot : Page) (oldCount skipPos : ℕ) : Result Page :=
  rebuildLeaf page snapshot oldCount (oldCount - 1) 0 0
    (((List.range oldCount).filter fun i => i != skipPos).map .kept)

/-- The rows at `idxs` but those whose index comes up in `skipIndices`, which is
walked with a pointer. -/
def skipSources : List ℕ → List ℕ → List RowSource
  | [], _ => []
  | i :: idxs, [] => .kept i :: skipSources idxs []
  | i :: idxs, j :: skip =>
      if j = i then skipSources idxs skip else .kept i :: skipSources idxs (j :: skip)

/-- `write_leaf_without_multiple`. -/
def writeLeafWithoutMultiple (page snapshot : Page) (oldCount : ℕ) (skipIndices : List ℕ) :
    Result Page :=
  if oldCount < skipIndices.length then overflowed
  else rebuildLeaf page snapshot oldCount (oldCount - skipIndices.length) 0 0
    (skipSources (List.range oldCount) skipIndices)

/-- The rows at `idxs`, replaced where their index comes up in `replacements`. -/
def replacementSources : List ℕ → List (ℕ × List UInt8) → List RowSource
  | [], _ => []
  | i :: idxs, [] => .kept i :: replacementSources idxs []
  | i :: idxs, (j, bytes) :: rest =>
      if j = i then .given bytes :: replacementSources idxs rest
      else .kept i :: replacementSources idxs ((j, bytes) :: rest)

/-- The size of a source, from the offsets alone. -/
def RowSource.size (snapshot : Page) (oldCount : ℕ) : RowSource → Result ℕ
  | .given bytes => pure bytes.length
  | .kept idx => do
      let (s, e) ← rowBounds snapshot idx oldCount
      if e < s then overflowed else pure (e - s)

/-- `write_leaf_with_replacements`: `none` when the rebuilt page would not fit,
and then nothing is written. -/
def writeLeafWithReplacements [Crc32Fast] (page snapshot : Page) (oldCount : ℕ)
    (replacements : List (ℕ × List UInt8)) : Result (Option Page) := do
  let sources := replacementSources (List.range oldCount) replacements
  let dataStart := pageHeaderSize + oldCount * 2
  let sizes ← sources.mapM (RowSource.size snapshot oldCount)
  if dataStart + sizes.sum + checksumSize > pageSize then pure none
  else
    let page ← rebuildLeaf page snapshot oldCount oldCount snapshot.nextLeaf snapshot.prevLeaf
      sources
    pure (some page.updateChecksum)

theorem skipSources_filter {idxs : List ℕ} (hnodup : idxs.Nodup) (p : ℕ → Bool) :
    skipSources idxs (idxs.filter p) = (idxs.filter fun i => !p i).map .kept := by
  induction idxs with
  | nil => rfl
  | cons i idxs ih =>
      obtain ⟨hi, hnodup⟩ := List.nodup_cons.mp hnodup
      cases hp : p i with
      | true => simp [hp, skipSources, ih hnodup]
      | false =>
          -- `i` is not among the later indices, so the pointer stays where it is
          have hstep : skipSources (i :: idxs) (idxs.filter p) =
              .kept i :: skipSources idxs (idxs.filter p) := by
            cases hskip : idxs.filter p with
            | nil => rfl
            | cons j skip =>
                have hj : j ∈ idxs := List.mem_of_mem_filter (hskip ▸ List.mem_cons_self)
                rw [skipSources, if_neg (fun h : j = i => hi (h ▸ hj))]
          simp [hp, hstep, ih hnodup]

/-- The source of index `i` when its replacement, if any, is `new`. -/
def replaced (i : ℕ) : Option (List UInt8) → RowSource
  | some bytes => .given bytes
  | none => .kept i

theorem replacementSources_filterMap {idxs : List ℕ} (hnodup : idxs.Nodup)
    (f : ℕ → Option (List UInt8)) :
    replacementSources idxs (idxs.filterMap fun i => (f i).map (Prod.mk i)) =
      idxs.map fun i => replaced i (f i) := by
  induction idxs with
  | nil => rfl
  | cons i idxs ih =>
      obtain ⟨hi, hnodup⟩ := List.nodup_cons.mp hnodup
      cases hf : f i with
      | some bytes => simp [hf, replacementSources, replaced, ih hnodup]
      | none =>
          have hstep : replacementSources (i :: idxs)
              (idxs.filterMap fun i => (f i).map (Prod.mk i)) =
                .kept i :: replacementSources idxs
                  (idxs.filterMap fun i => (f i).map (Prod.mk i)) := by
            cases hrest : idxs.filterMap fun i => (f i).map (Prod.mk i) with
            | nil => rfl
            | cons jb rest =>
                obtain ⟨j, bytes⟩ := jb
                have hmem : (j, bytes) ∈ idxs.filterMap fun i => (f i).map (Prod.mk i) :=
                  hrest ▸ List.mem_cons_self
                obtain ⟨k, hk, hkj⟩ := List.mem_filterMap.mp hmem
                obtain ⟨b, _, hb⟩ := Option.map_eq_some_iff.mp hkj
                have hj : j ∈ idxs := (Prod.mk.inj hb).1 ▸ hk
                rw [replacementSources, if_neg (fun h : j = i => hi (h ▸ hj))]
          simp [hf, hstep, replaced, ih hnodup]

/-! ## Sources and rows -/

/-- The sources yield the rows, on this snapshot. -/
abbrev Yields (snapshot : Page) (oldCount : ℕ) (sources : List RowSource)
    (rows : List (List UInt8)) : Prop :=
  List.Forall₂ (fun src row => src.bytes snapshot oldCount = .ok row) sources rows

theorem RowSource.size_of_bytes {snapshot : Page} {oldCount : ℕ} {src : RowSource}
    {row : List UInt8}
    (h : src.bytes snapshot oldCount = .ok row) : src.size snapshot oldCount = .ok row.length := by
  cases src with
  | given bytes =>
      cases h
      rfl
  | kept idx =>
      obtain ⟨⟨s, e⟩, hbounds, hrow⟩ := bind_eq_ok.mp h
      rw [RowSource.size, hbounds, ok_bind]
      dsimp only at hrow ⊢
      by_cases hlt : e < s
      · rw [if_pos hlt] at hrow
        cases hrow
      · rw [if_neg hlt] at hrow ⊢
        by_cases hin : s ≤ e ∧ e ≤ snapshot.data.length
        · rw [bytesOf_ok hin.1 hin.2] at hrow
          cases hrow
          rw [length_slice hin.2]
          rfl
        · rw [bytesOf, if_neg hin] at hrow
          cases hrow

/-- The snapshot has these rows: each is the source of itself. -/
def HasRows (snapshot : Page) (rows : List (List UInt8)) : Prop :=
  ∀ i (h : i < rows.length), (RowSource.kept i).bytes snapshot rows.length = .ok rows[i]

section

variable {snapshot : Page} {rows : List (List UInt8)} {row : List UInt8} {pos : ℕ}

theorem HasRows.virtual (hrows : HasRows snapshot rows) (hpos : pos ≤ rows.length) :
    Yields snapshot rows.length
      ((List.range (rows.length + 1)).map (virtualSource pos row)) (rows.insertIdx pos row) := by
  rw [Yields, List.forall₂_iff_get]
  refine ⟨by rw [List.length_map, List.length_range, List.length_insertIdx_of_le_length hpos], ?_⟩
  intro i hi hi'
  rw [List.length_map, List.length_range] at hi
  simp only [List.get_eq_getElem, List.getElem_map, List.getElem_range, virtualSource]
  rcases Nat.lt_trichotomy i pos with hlt | heq | hgt
  · rw [if_neg (by omega), if_pos hlt, List.getElem_insertIdx_of_lt hlt]
    exact hrows i (by omega)
  · subst heq
    rw [if_pos rfl, List.getElem_insertIdx_self]
    rfl
  · rw [if_neg (by omega), if_neg (by omega), List.getElem_insertIdx_of_gt hgt]
    exact hrows (i - 1) (by omega)

theorem HasRows.range {start stop : ℕ} (hrows : HasRows snapshot rows) (hpos : pos ≤ rows.length)
    (hstop : stop ≤ rows.length + 1) :
    Yields snapshot rows.length
      ((List.range' start (stop - start)).map (virtualSource pos row))
      (((rows.insertIdx pos row).take stop).drop start) := by
  have hrange : List.range' start (stop - start) =
      ((List.range (rows.length + 1)).take stop).drop start := by
    rw [List.range_eq_range', List.take_range'_of_length_ge hstop, List.drop_range']
    simp
  rw [hrange, List.map_drop, List.map_take]
  exact List.forall₂_drop _ (List.forall₂_take _ (hrows.virtual hpos))

/-- Every row is a source of itself, along the indices. -/
theorem HasRows.kept (hrows : HasRows snapshot rows) :
    List.Forall₂ (fun i row => (RowSource.kept i).bytes snapshot rows.length = .ok row ∧
      rows[i]? = some row) (List.range rows.length) rows := by
  rw [List.forall₂_iff_get]
  refine ⟨List.length_range, fun i hi hi' => ?_⟩
  simp only [List.get_eq_getElem, List.getElem_range]
  exact ⟨hrows i hi', List.getElem?_eq_getElem hi'⟩

theorem HasRows.without (hrows : HasRows snapshot rows) (hpos : pos < rows.length) :
    Yields snapshot rows.length
      (((List.range rows.length).filter fun i => i != pos).map .kept) (rows.eraseIdx pos) := by
  have hsplit : (List.range rows.length).filter (fun i => i != pos) =
      (List.range rows.length).take pos ++ (List.range rows.length).drop (pos + 1) := by
    have herase := List.Nodup.erase_getElem List.nodup_range pos
      (show pos < (List.range rows.length).length by rwa [List.length_range])
    rw [List.getElem_range, List.Nodup.erase_eq_filter List.nodup_range] at herase
    rw [herase, List.eraseIdx_eq_take_drop_succ]
  rw [hsplit, List.eraseIdx_eq_take_drop_succ, List.map_append, Yields]
  refine List.rel_append ?_ ?_ <;> rw [List.forall₂_map_left_iff]
  · exact List.forall₂_take _ (hrows.kept.imp fun _ _ h => h.1)
  · exact List.forall₂_drop _ (hrows.kept.imp fun _ _ h => h.1)

/-- The rows whose index passes a test. -/
def keepIdxs (p : ℕ → Bool) (rows : List (List UInt8)) : List (List UInt8) :=
  (rows.zipIdx.filter fun entry => p entry.2).map Prod.fst

/-- The rows, replaced where `f` gives something for their index. -/
def replaceIdxs (f : ℕ → Option (List UInt8)) (rows : List (List UInt8)) : List (List UInt8) :=
  rows.mapIdx fun i row => (f i).getD row

theorem keepIdxs_sublist (p : ℕ → Bool) (rows : List (List UInt8)) :
    (keepIdxs p rows).Sublist rows := by
  have hsub := (List.filter_sublist (p := fun entry => p entry.2) (l := rows.zipIdx)).map Prod.fst
  rwa [List.zipIdx_map_fst] at hsub

theorem HasRows.keepIdxs (hrows : HasRows snapshot rows) (p : ℕ → Bool) :
    Yields snapshot rows.length (((List.range rows.length).filter p).map .kept)
      (BoogyDb.keepIdxs p rows) := by
  have hzip : List.Forall₂ (fun i entry => (RowSource.kept i).bytes snapshot rows.length =
      .ok entry.1 ∧ i = entry.2) (List.range rows.length) rows.zipIdx := by
    rw [List.forall₂_iff_get]
    refine ⟨by simp, fun i hi hi' => ?_⟩
    rw [List.length_range] at hi
    simpa using hrows i hi
  rw [Yields, BoogyDb.keepIdxs, List.forall₂_map_left_iff, List.forall₂_map_right_iff]
  refine (List.rel_filter ?_ hzip).imp fun _ _ h => h.1
  rintro i entry ⟨_, hi⟩
  rw [hi]

theorem HasRows.replaceIdxs (hrows : HasRows snapshot rows) (f : ℕ → Option (List UInt8)) :
    Yields snapshot rows.length ((List.range rows.length).map fun i => replaced i (f i))
      (BoogyDb.replaceIdxs f rows) := by
  rw [Yields, List.forall₂_iff_get]
  refine ⟨by simp [BoogyDb.replaceIdxs], fun i hi hi' => ?_⟩
  rw [List.length_map, List.length_range] at hi
  simp only [List.get_eq_getElem, List.getElem_map, List.getElem_range, BoogyDb.replaceIdxs,
    List.getElem_mapIdx]
  cases f i with
  | none => exact hrows i hi
  | some bytes => rfl

/-- A test on the indices that is one on the bytes. -/
theorem keepIdxs_eq_filter {p : ℕ → Bool} {q : List UInt8 → Bool}
    (hpq : ∀ i (h : i < rows.length), p i = q rows[i]) :
    keepIdxs p rows = rows.filter q := by
  have hfilter : rows.zipIdx.filter (fun entry => p entry.2) =
      rows.zipIdx.filter (q ∘ Prod.fst) := by
    refine List.filter_congr fun entry hentry => ?_
    obtain ⟨hlt, hrow⟩ := List.mem_zipIdx' hentry
    rw [hpq entry.2 hlt, Function.comp_apply, hrow]
  rw [keepIdxs, hfilter, ← List.filter_map, List.zipIdx_map_fst]

/-- A replacement that looks at the bytes alone. -/
theorem replaceIdxs_eq_map {f : ℕ → Option (List UInt8)} {g : List UInt8 → Option (List UInt8)}
    (hfg : ∀ i (h : i < rows.length), f i = g rows[i]) :
    replaceIdxs f rows = rows.map fun row => (g row).getD row := by
  refine List.ext_getElem (by simp [replaceIdxs]) fun i hi hi' => ?_
  rw [List.length_map] at hi'
  simp [replaceIdxs, hfg i hi']

/-! ## The rewriters on any page

The page that is rewritten may hold anything; the magic number stays. -/

variable {page : Page} {h : Header} {body : List UInt8}

theorem writeLeafWithInsert_lays (hpage : Lays page h body) (hrows : HasRows snapshot rows)
    (hpos : pos ≤ rows.length) (hfits : Fits (rows.insertIdx pos row)) :
    ∃ p, writeLeafWithInsert page snapshot rows.length pos row = .ok p ∧
      Lays p { leafHeader (rows.insertIdx pos row) snapshot.nextLeaf snapshot.prevLeaf with
        magic := h.magic } (leafBody (rows.insertIdx pos row)) := by
  have hlen := List.length_insertIdx_of_le_length hpos row
  obtain ⟨p, hp, hlays⟩ := @rebuildLeaf_lays_magic _ _ _ _ _ _ _ snapshot.nextLeaf
    snapshot.prevLeaf hpage (hrows.virtual hpos) hfits
  rw [hlen] at hp
  exact ⟨p, hp, hlays⟩

theorem writeLeafRange_lays {start stop : ℕ} (hpage : Lays page h body)
    (hrows : HasRows snapshot rows) (hpos : pos ≤ rows.length) (hstop : stop ≤ rows.length + 1)
    (hfits : Fits (((rows.insertIdx pos row).take stop).drop start)) :
    ∃ p, writeLeafRange page snapshot rows.length pos row start stop = .ok p ∧
      Lays p { leafHeader (((rows.insertIdx pos row).take stop).drop start) 0 0 with
        magic := h.magic } (leafBody (((rows.insertIdx pos row).take stop).drop start)) := by
  have hlen : (((rows.insertIdx pos row).take stop).drop start).length = stop - start := by
    rw [List.length_drop, List.length_take, List.length_insertIdx_of_le_length hpos,
      Nat.min_eq_left hstop]
  obtain ⟨p, hp, hlays⟩ := @rebuildLeaf_lays_magic _ _ _ _ _ _ _ 0 0 hpage
    (hrows.range hpos hstop) hfits
  rw [hlen] at hp
  exact ⟨p, hp, hlays⟩

theorem writeLeafWithout_lays (hpage : Lays page h body) (hrows : HasRows snapshot rows)
    (hpos : pos < rows.length) (hfits : Fits (rows.eraseIdx pos)) :
    ∃ p, writeLeafWithout page snapshot rows.length pos = .ok p ∧
      Lays p { leafHeader (rows.eraseIdx pos) 0 0 with magic := h.magic }
        (leafBody (rows.eraseIdx pos)) := by
  have hlen := List.length_eraseIdx_of_lt hpos
  obtain ⟨p, hp, hlays⟩ := @rebuildLeaf_lays_magic _ _ _ _ _ _ _ 0 0 hpage (hrows.without hpos)
    hfits
  rw [hlen] at hp
  exact ⟨p, hp, hlays⟩

/-- `skipIndices` are the indices that pass the test `p`, in their order. -/
theorem writeLeafWithoutMultiple_lays (hpage : Lays page h body) (hrows : HasRows snapshot rows)
    (p : ℕ → Bool) (hfits : Fits (keepIdxs (fun i => !p i) rows)) :
    ∃ page', writeLeafWithoutMultiple page snapshot rows.length
        ((List.range rows.length).filter p) = .ok page' ∧
      Lays page' { leafHeader (keepIdxs (fun i => !p i) rows) 0 0 with magic := h.magic }
        (leafBody (keepIdxs (fun i => !p i) rows)) := by
  have hyield := hrows.keepIdxs fun i => !p i
  have hcount : ((List.range rows.length).filter p).length +
      (keepIdxs (fun i => !p i) rows).length = rows.length := by
    rw [← hyield.length_eq, List.length_map, ← List.length_append,
      (List.filter_append_perm p (List.range rows.length)).length_eq, List.length_range]
  obtain ⟨page', hpage', hlays⟩ := @rebuildLeaf_lays_magic _ _ _ _ _ _ _ 0 0 hpage hyield hfits
  refine ⟨page', ?_, hlays⟩
  rw [writeLeafWithoutMultiple, if_neg (by omega), skipSources_filter List.nodup_range, ← hpage']
  congr 1
  omega

/-- The page is rebuilt when the new rows fit, and left alone otherwise. -/
theorem writeLeafWithReplacements_lays [Crc32Fast] (hpage : Lays page h body)
    (hrows : HasRows snapshot rows) (f : ℕ → Option (List UInt8)) :
    writeLeafWithReplacements page snapshot rows.length
        ((List.range rows.length).filterMap fun i => (f i).map (Prod.mk i)) =
      .ok (if Fits (replaceIdxs f rows) then
        some (pageOf { leafHeader (replaceIdxs f rows) snapshot.nextLeaf snapshot.prevLeaf with
          magic := h.magic } (leafBody (replaceIdxs f rows))) else none) := by
  have hyield := hrows.replaceIdxs f
  set rows' := replaceIdxs f rows with hrows'
  have hlen : rows'.length = rows.length := by rw [hrows', replaceIdxs, List.length_mapIdx]
  have hsizes : ((List.range rows.length).map fun i => replaced i (f i)).mapM
      (RowSource.size snapshot rows.length) = .ok (rows'.map List.length) := by
    rw [Except.mapM_eq_ok_iff, List.forall₂_map_right_iff]
    exact hyield.imp fun _ _ h => RowSource.size_of_bytes h
  rw [writeLeafWithReplacements, replacementSources_filterMap List.nodup_range, hsizes, ok_bind]
  have hiff : pageHeaderSize + rows.length * 2 + (rows'.map List.length).sum + checksumSize >
      pageSize ↔ ¬ Fits rows' := by
    rw [Fits, usedSize, hlen, dataSize, pageSize, checksumSize]
    omega
  by_cases hfit : Fits rows'
  · obtain ⟨page', hpage', hlays⟩ := @rebuildLeaf_lays_magic _ _ _ _ _ _ _ snapshot.nextLeaf
      snapshot.prevLeaf hpage hyield hfit
    rw [hlen] at hpage'
    rw [if_neg (not_not.mpr hfit ∘ hiff.mp), if_pos hfit, hpage', ok_bind, hlays.updateChecksum]
    rfl
  · rw [if_pos (hiff.mpr hfit), if_neg hfit]
    rfl

end

section

variable [Crc32Fast] {rows : List (List UInt8)} {row : List UInt8} {next prev pos : ℕ}

theorem hasRows_leafPage (hfits : Fits rows) : HasRows (leafPage rows next prev) rows :=
  fun _ h => kept_leafPage hfits h

/-! ## The rewriters on leaf pages -/

theorem Lays.toLeafPage {p : Page} {n q : ℕ} (hp : Lays p (leafHeader rows n q) (leafBody rows))
    (next prev : ℕ) : ((p.setNextLeaf next).setPrevLeaf prev).updateChecksum =
      leafPage rows next prev :=
  ((hp.setNextLeaf next).setPrevLeaf prev).updateChecksum

theorem Lays.toLeafPage' {p : Page} {n q : ℕ} (hp : Lays p (leafHeader rows n q) (leafBody rows))
    (next prev : ℕ) : ((p.setPrevLeaf prev).setNextLeaf next).updateChecksum =
      leafPage rows next prev :=
  ((hp.setPrevLeaf prev).setNextLeaf next).updateChecksum

theorem setPrevLeaf_leafPage (q : ℕ) :
    ((leafPage rows next prev).setPrevLeaf q).updateChecksum = leafPage rows next q :=
  (leafPage_lays.setPrevLeaf q).updateChecksum

variable {rows₀ : List (List UInt8)} {next₀ prev₀ : ℕ}

theorem writeLeafWithInsert_leafPage (hfits : Fits rows) (hpos : pos ≤ rows.length)
    (hfits' : Fits (rows.insertIdx pos row)) (hnext : next < 2 ^ 32) (hprev : prev < 2 ^ 32) :
    ∃ p, writeLeafWithInsert (leafPage rows₀ next₀ prev₀) (leafPage rows next prev) rows.length
        pos row = .ok p ∧ p.updateChecksum = leafPage (rows.insertIdx pos row) next prev := by
  obtain ⟨p, hp, hlays⟩ := writeLeafWithInsert_lays (@leafPage_lays _ rows₀ next₀ prev₀)
    (@hasRows_leafPage _ rows next prev hfits) hpos hfits'
  rw [nextLeaf_leafPage hnext, prevLeaf_leafPage hprev] at hlays
  exact ⟨p, hp, hlays.updateChecksum⟩

theorem writeLeafRange_leafPage {start stop : ℕ} (hfits : Fits rows) (hpos : pos ≤ rows.length)
    (hstop : stop ≤ rows.length + 1)
    (hfits' : Fits (((rows.insertIdx pos row).take stop).drop start)) :
    ∃ p, writeLeafRange (leafPage rows₀ next₀ prev₀) (leafPage rows next prev) rows.length pos row
        start stop = .ok p ∧
      Lays p (leafHeader (((rows.insertIdx pos row).take stop).drop start) 0 0)
        (leafBody (((rows.insertIdx pos row).take stop).drop start)) :=
  writeLeafRange_lays (@leafPage_lays _ rows₀ next₀ prev₀) (hasRows_leafPage hfits) hpos hstop
    hfits'

theorem writeLeafWithout_leafPage (hfits : Fits rows) (hpos : pos < rows.length) :
    ∃ p, writeLeafWithout (leafPage rows₀ next₀ prev₀) (leafPage rows next prev) rows.length
        pos = .ok p ∧
      Lays p (leafHeader (rows.eraseIdx pos) 0 0) (leafBody (rows.eraseIdx pos)) :=
  writeLeafWithout_lays (@leafPage_lays _ rows₀ next₀ prev₀) (hasRows_leafPage hfits) hpos
    (hfits.sublist (List.eraseIdx_sublist rows pos))

/-- Rows erased by a test on their bytes: `skipIndices` are the indices that pass it. -/
theorem writeLeafWithoutMultiple_leafPage (hfits : Fits rows) (q : List UInt8 → Bool)
    {p : ℕ → Bool} (hpq : ∀ i (h : i < rows.length), p i = q rows[i]) :
    ∃ page, writeLeafWithoutMultiple (leafPage rows₀ next₀ prev₀) (leafPage rows next prev)
        rows.length ((List.range rows.length).filter p) = .ok page ∧
      Lays page (leafHeader (rows.filter fun row => !q row) 0 0)
        (leafBody (rows.filter fun row => !q row)) := by
  have hkeep : keepIdxs (fun i => !p i) rows = rows.filter fun row => !q row :=
    keepIdxs_eq_filter fun i h => by rw [hpq i h]
  rw [← hkeep]
  exact writeLeafWithoutMultiple_lays (@leafPage_lays _ rows₀ next₀ prev₀)
    (hasRows_leafPage hfits) p (hfits.sublist (keepIdxs_sublist _ rows))

/-- Rows replaced after a look at their bytes: the page is rebuilt when the new
rows fit, and left alone otherwise. -/
theorem writeLeafWithReplacements_leafPage (hfits : Fits rows)
    (g : List UInt8 → Option (List UInt8)) {f : ℕ → Option (List UInt8)}
    (hfg : ∀ i (h : i < rows.length), f i = g rows[i]) (hnext : next < 2 ^ 32)
    (hprev : prev < 2 ^ 32) :
    writeLeafWithReplacements (leafPage rows₀ next₀ prev₀) (leafPage rows next prev) rows.length
        ((List.range rows.length).filterMap fun i => (f i).map (Prod.mk i)) =
      .ok (if Fits (rows.map fun row => (g row).getD row) then
        some (leafPage (rows.map fun row => (g row).getD row) next prev) else none) := by
  rw [writeLeafWithReplacements_lays (@leafPage_lays _ rows₀ next₀ prev₀)
    (@hasRows_leafPage _ rows next prev hfits) f, nextLeaf_leafPage hnext, prevLeaf_leafPage hprev,
    replaceIdxs_eq_map hfg]
  rfl

end

end BoogyDb
