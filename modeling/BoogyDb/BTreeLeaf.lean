import BoogyDb.BTree
import BoogyDb.TreeSteps

/-!
# The leaves of the table tree

What the leaf functions of `btree.rs` compute on a leaf page, in terms of the
rows on it: positions found by binary search, the row ids and sizes at virtual
positions, and the rows a bulk operation matches.  Rows need not be sorted or
even hold a row id here.
-/

namespace BoogyDb

open Bytes BinarySearch Wp WriteGuard

/-! ## Row ids -/

theorem extractId_of_length_lt {row : List UInt8} (h : row.length < 8) :
    ∃ e, extractId row = .error (.error e) := by
  rw [extractId, ensureBytes, if_pos (by omega)]
  exact ⟨_, rfl⟩

theorem extractId_of_le_length {row : List UInt8} (h : 8 ≤ row.length) :
    extractId row = .ok (UInt64.ofNat (readLe row 0 8)) := by
  rw [extractId, ensureBytes, if_neg (by omega)]
  exact readU64_ok (by omega)

theorem extractId_ne_panic (row : List UInt8) : extractId row ≠ .error .panic := by
  rcases Nat.lt_or_ge row.length 8 with h | h
  · obtain ⟨e, he⟩ := extractId_of_length_lt h
    rw [he]
    simp
  · rw [extractId_of_le_length h]
    simp

/-- The row id of a row that starts with it. -/
theorem extractId_append (rowid : UInt64) (rest : List UInt8) :
    extractId (leBytes 8 rowid.toNat ++ rest) = .ok rowid := by
  have hread : readLe (leBytes 8 rowid.toNat ++ rest) 0 8 = rowid.toNat :=
    @readLe_eq_of_append _ [] rest 0 8 _ rfl rfl rowid.toNat_lt
  rw [extractId_of_le_length (by simp), hread]
  simp

section

variable [Crc32Fast] {rows : List (List UInt8)} {next prev : ℕ} {rowid : UInt64}

/-! ## Searching a leaf -/

theorem probeRow_leafPage (hfits : Fits rows) {i : ℕ} (hi : i < rows.length) :
    probeRow (leafPage rows next prev) rowid i =
      (extractId rows[i]).map fun id => compare id rowid := by
  rw [probeRow, numRows_leafPage hfits, rowSlice_leafPage hfits hi, ok_bind]
  cases extractId rows[i] with
  | error e => rfl
  | ok id => rfl

theorem findInsertionPoint_bounds (hfits : Fits rows) {pos : ℕ} {found : Bool}
    (h : findInsertionPoint (leafPage rows next prev) rowid = .ok (pos, found)) :
    pos ≤ rows.length ∧ (found = true → pos < rows.length) := by
  rw [findInsertionPoint, numRows_leafPage hfits] at h
  by_cases hzero : rows.length = 0
  · rw [if_pos hzero] at h
    cases h
    exact ⟨Nat.zero_le _, fun hf => by cases hf⟩
  · rw [if_neg hzero] at h
    exact (bsearch_bounds (Nat.zero_le _) h).2

theorem findInsertionPoint_ne_panic (hfits : Fits rows) :
    findInsertionPoint (leafPage rows next prev) rowid ≠ .error .panic := by
  intro h
  rw [findInsertionPoint, numRows_leafPage hfits] at h
  by_cases hzero : rows.length = 0
  · rw [if_pos hzero] at h
    cases h
  · rw [if_neg hzero] at h
    obtain ⟨i, -, hi, hprobe⟩ := bsearch_error h
    rw [probeRow_leafPage hfits hi] at hprobe
    cases hid : extractId rows[i] with
    | error e =>
        rw [hid] at hprobe
        cases hprobe
        exact extractId_ne_panic _ hid
    | ok id =>
        rw [hid] at hprobe
        cases hprobe

/-- The rows have these row ids. -/
abbrev HaveIds (rows : List (List UInt8)) (ids : List UInt64) : Prop :=
  List.Forall₂ (fun row id => extractId row = .ok id) rows ids

/-- On rows in order of their ids the search splits the ids. -/
theorem findInsertionPoint_sorted {ids : List UInt64} (hfits : Fits rows)
    (hids : HaveIds rows ids) (hsorted : ids.Pairwise (· < ·)) :
    ∃ res, findInsertionPoint (leafPage rows next prev) rowid = .ok res ∧
      Splits (fun i => ids.getD i 0) rowid 0 rows.length res := by
  have hlen := hids.length_eq
  have hkey : ∀ i (h : i < rows.length), ids.getD i 0 = getElem ids i (hlen ▸ h) := fun i h => by
    rw [List.getD_eq_getElem?_getD, List.getElem?_eq_getElem (hlen ▸ h), Option.getD_some]
  have hprobe : ∀ i, 0 ≤ i → i < rows.length →
      probeRow (leafPage rows next prev) rowid i = .ok (compare (ids.getD i 0) rowid) := by
    intro i _ hi
    have hid : extractId rows[i] = .ok (getElem ids i (hlen ▸ hi)) :=
      (List.forall₂_iff_get.mp hids).2 i hi (hlen ▸ hi)
    rw [probeRow_leafPage hfits hi, hid, hkey i hi]
    rfl
  obtain ⟨res, hres, hsplit⟩ := bsearch_spec 0 rows.length (Nat.zero_le _) hprobe
    fun i j _ hij hj => by
      rw [hkey i (hij.trans hj), hkey j hj]
      exact List.pairwise_iff_getElem.mp hsorted i j _ _ hij
  rw [findInsertionPoint, numRows_leafPage hfits]
  by_cases hzero : rows.length = 0
  · refine ⟨(0, false), if_pos hzero, le_rfl, Nat.zero_le _, fun i _ hi => ?_, fun i _ hi => ?_,
      fun h => by cases h⟩
    · exact absurd hi (Nat.not_lt_zero i)
    · rw [hzero] at hi
      exact absurd hi (Nat.not_lt_zero i)
  · rw [if_neg hzero]
    exact ⟨res, hres, hsplit⟩

/-- A row id above all others belongs at the end. -/
theorem findInsertionPoint_end {ids : List UInt64} (hfits : Fits rows) (hids : HaveIds rows ids)
    (hsorted : ids.Pairwise (· < ·)) (habove : ∀ id ∈ ids, id < rowid) :
    findInsertionPoint (leafPage rows next prev) rowid = .ok (rows.length, false) := by
  obtain ⟨⟨pos, found⟩, hres, hsplit⟩ := @findInsertionPoint_sorted _ rows next prev rowid ids hfits
    hids hsorted
  have hlen := hids.length_eq
  have hkey : ∀ i, i < rows.length → ids.getD i 0 < rowid := fun i h => by
    rw [List.getD_eq_getElem?_getD, List.getElem?_eq_getElem (hlen ▸ h), Option.getD_some]
    exact habove _ (List.getElem_mem _)
  have hfound : found = false := by
    rw [← Bool.not_eq_true]
    intro hf
    obtain ⟨hlt, heq⟩ := hsplit.hit hf
    exact (hkey pos hlt).ne heq
  have hpos : pos = rows.length := by
    refine Nat.le_antisymm hsplit.le_hi (Nat.le_of_not_lt fun hlt => ?_)
    have := hsplit.above pos le_rfl hlt
    rw [hfound, if_neg (by simp)] at this
    exact (hkey pos hlt).asymm this
  rw [hres, hpos, hfound]

/-! ## Virtual positions -/

theorem extractIdAtVirtualPos_leafPage (hfits : Fits rows) {pos mid : ℕ} {row : List UInt8}
    (hpos : pos ≤ rows.length) (hmid : mid < rows.length + 1) :
    extractIdAtVirtualPos (leafPage rows next prev) rows.length pos row mid =
      extractId (getElem (rows.insertIdx pos row) mid (by
        rw [List.length_insertIdx_of_le_length hpos]; exact hmid)) := by
  rw [extractIdAtVirtualPos]
  rcases Nat.lt_trichotomy mid pos with hlt | heq | hgt
  · rw [if_neg hlt.ne, if_pos hlt, rowSlice_leafPage hfits (by omega), ok_bind,
      List.getElem_insertIdx_of_lt hlt]
  · subst heq
    rw [if_pos rfl, List.getElem_insertIdx_self]
  · rw [if_neg hgt.ne', if_neg (by omega), rowSlice_leafPage hfits (by omega), ok_bind,
      List.getElem_insertIdx_of_gt hgt]

/-- The sizes of a window of the rows with a new one inserted. -/
theorem sizes_range {start stop pos : ℕ} {row : List UInt8} (hfits : Fits rows)
    (hpos : pos ≤ rows.length) (hstop : stop ≤ rows.length + 1) :
    (List.range' start (stop - start)).mapM (fun i =>
        (virtualSource pos row i).size (leafPage rows next prev) rows.length) =
      .ok ((((rows.insertIdx pos row).take stop).drop start).map List.length) := by
  have hyield := @HasRows.range (leafPage rows next prev) rows row pos start stop
    (hasRows_leafPage hfits) hpos hstop
  rw [Except.mapM_eq_ok_iff, List.forall₂_map_right_iff]
  rw [Yields, List.forall₂_map_left_iff] at hyield
  exact hyield.imp fun _ _ h => RowSource.size_of_bytes h

/-! ## The rows of a leaf, one after the other -/

omit [Crc32Fast] in
theorem getD_of_mem_zipIdx {row : List UInt8} {i : ℕ} (h : (row, i) ∈ rows.zipIdx) :
    rows.getD i [] = row := by
  rw [List.getD_eq_getElem?_getD, List.mk_mem_zipIdx_iff_getElem?.mp h, Option.getD_some]

/-- The loop over the rows, without the page. -/
theorem forRows_leafPage {α : Type} (hfits : Fits rows) (step : α → ℕ → List UInt8 → Result α)
    (init : α) :
    forRows (leafPage rows next prev) step init =
      rows.zipIdx.foldlM (fun acc x => if x.1 = [] then pure acc else step acc x.2 x.1) init := by
  have hrange : List.range rows.length = rows.zipIdx.map Prod.snd := by
    rw [List.zipIdx_map_snd, List.range_eq_range']
  rw [forRows, numRows_leafPage hfits, hrange, List.foldlM_map]
  refine Except.foldlM_congr fun acc x hx => ?_
  obtain ⟨row, i⟩ := x
  obtain ⟨hi, hrow⟩ := List.getElem?_eq_some_iff.mp (List.mk_mem_zipIdx_iff_getElem?.mp hx)
  have hend := rowEnd_le hfits hi
  dsimp only
  rw [rowBounds_leafPage hfits hi, ok_bind]
  dsimp only
  rw [hrow]
  rw [hrow] at hend
  by_cases hempty : row = []
  · rw [if_pos hempty, if_neg (by rw [hempty]; simp)]
  · have hpos := List.length_pos_iff.mpr hempty
    have hslice := @slice_leafPage _ rows next prev i hfits hi
    rw [hrow] at hslice
    rw [if_neg hempty, if_pos ⟨by omega, hend.trans (Nat.sub_le _ _)⟩,
      bytesOf_ok (Nat.le_add_right _ _) (by rw [Page.size]; exact hend.trans (Nat.sub_le _ _)),
      hslice, ok_bind]

/-- What a bulk operation makes of a cell: the row id and the whole row, when the
cell satisfies `pred` and the row can be put together and has an id. -/
def hitRow (guard : WriteGuard) (pred : List UInt8 → Bool) (row : List UInt8) :
    Option (UInt64 × List UInt8) :=
  if row = [] ∨ pred row = false then none
  else
    match reassembleRow guard.view row with
    | .ok full =>
        match extractId full with
        | .ok id => some (id, full)
        | .error _ => none
    | .error _ => none

variable {guard : WriteGuard} {pred : List UInt8 → Bool}

/-- A loop that pushes the hits, when it goes through: it has pushed what
`hitRow` says, in order. -/
theorem bulk_fold {α : Type} (push : α → ℕ → UInt64 → List UInt8 → α) {l : List (List UInt8)}
    {k : ℕ} {acc res : α}
    (h : (l.zipIdx k).foldlM (fun acc x => if x.1 = [] then pure acc else
      (if pred x.1 then do
        let full ← reassembleRow guard.view x.1
        match extractId full with
        | .ok id => pure (push acc x.2 id full)
        | .error _ => pure acc
      else pure acc : Result _)) acc = .ok res) :
    res = (l.zipIdx k).foldl (fun acc x =>
      (hitRow guard pred x.1).elim acc fun r => push acc x.2 r.1 r.2) acc := by
  induction l generalizing k acc with
  | nil =>
      cases h
      rfl
  | cons row l ih =>
      rw [List.zipIdx_cons, List.foldlM_cons] at h
      obtain ⟨acc', hstep, hrest⟩ := bind_eq_ok.mp h
      rw [ih hrest, List.zipIdx_cons, List.foldl_cons]
      congr 1
      dsimp only at hstep ⊢
      by_cases hempty : row = []
      · rw [if_pos hempty] at hstep
        cases hstep
        have hmiss : hitRow guard pred row = none := if_pos (Or.inl hempty)
        rw [hmiss]
        rfl
      rw [if_neg hempty] at hstep
      cases hpred : pred row with
      | false =>
          rw [hpred, if_neg Bool.false_ne_true] at hstep
          cases hstep
          have hmiss : hitRow guard pred row = none := if_pos (Or.inr hpred)
          rw [hmiss]
          rfl
      | true =>
          rw [hpred, if_pos rfl] at hstep
          obtain ⟨full, hfull, hid⟩ := bind_eq_ok.mp hstep
          have hhit : hitRow guard pred row =
              match extractId full with
              | .ok id => some (id, full)
              | .error _ => none := by
            rw [hitRow, if_neg (by simp [hempty, hpred]), hfull]
          cases hext : extractId full with
          | error e =>
              rw [hext] at hid hhit
              cases hid
              rw [hhit]
              rfl
          | ok id =>
              rw [hext] at hid hhit
              cases hid
              rw [hhit]
              rfl

omit [Crc32Fast] in
theorem filter_zipIdx_map_snd (q : List UInt8 → Bool) :
    (rows.zipIdx.filter fun x => q x.1).map Prod.snd =
      (List.range rows.length).filter fun i => q (rows.getD i []) := by
  have hrange : List.range rows.length = rows.zipIdx.map Prod.snd := by
    rw [List.zipIdx_map_snd, List.range_eq_range']
  rw [hrange, List.filter_map]
  congr 1
  refine List.filter_congr fun x hx => ?_
  obtain ⟨row, i⟩ := x
  rw [Function.comp_apply, getD_of_mem_zipIdx hx]

theorem matchRows_leafPage (hfits : Fits rows) {matched : List (UInt64 × List UInt8)}
    {idxs : List ℕ}
    (h : BTreeWriter.matchRows pred guard (leafPage rows next prev) = .ok (matched, idxs)) :
    matched = rows.filterMap (hitRow guard pred) ∧
      idxs = (List.range rows.length).filter fun i =>
        (hitRow guard pred (rows.getD i [])).isSome := by
  rw [BTreeWriter.matchRows, forRows_leafPage hfits] at h
  have hfold := bulk_fold (fun acc i id full => (acc.1 ++ [(id, full)], acc.2 ++ [i])) h
  have hpush : ∀ (l : List (List UInt8)) (k : ℕ) (acc : List (UInt64 × List UInt8) × List ℕ),
      (l.zipIdx k).foldl (fun acc x => (hitRow guard pred x.1).elim acc fun r =>
          (acc.1 ++ [(r.1, r.2)], acc.2 ++ [x.2])) acc =
        (acc.1 ++ l.filterMap (hitRow guard pred), acc.2 ++
          ((l.zipIdx k).filter fun x => (hitRow guard pred x.1).isSome).map Prod.snd) := by
    intro l
    induction l with
    | nil => simp
    | cons row l ih =>
        intro k acc
        rw [List.zipIdx_cons, List.foldl_cons, ih]
        cases hhit : hitRow guard pred row <;> simp [hhit]
  rw [hpush] at hfold
  obtain ⟨rfl, rfl⟩ := Prod.mk.inj hfold
  exact ⟨rfl, filter_zipIdx_map_snd fun row => (hitRow guard pred row).isSome⟩

theorem replaceRows_leafPage {updater : List UInt8 → List UInt8} (hfits : Fits rows)
    {replacements : List (ℕ × BTreeWriter.RowUpdate)}
    (h : BTreeWriter.replaceRows pred updater guard (leafPage rows next prev) =
      .ok replacements) :
    replacements = rows.zipIdx.filterMap fun x =>
      (hitRow guard pred x.1).map fun r => (x.2, r.1, r.2, updater r.2) := by
  rw [BTreeWriter.replaceRows, forRows_leafPage hfits] at h
  have hfold := bulk_fold (fun acc i id full => acc ++ [(i, id, full, updater full)]) h
  have hpush : ∀ (l : List (List UInt8 × ℕ)) (acc : List (ℕ × BTreeWriter.RowUpdate)),
      l.foldl (fun acc x => (hitRow guard pred x.1).elim acc fun r =>
          acc ++ [(x.2, r.1, r.2, updater r.2)]) acc =
        acc ++ l.filterMap fun x =>
          (hitRow guard pred x.1).map fun r => (x.2, r.1, r.2, updater r.2) := by
    intro l
    induction l with
    | nil => simp
    | cons x l ih =>
        intro acc
        rw [List.foldl_cons, ih]
        cases hhit : hitRow guard pred x.1 <;> simp [hhit]
  rw [hpush, List.nil_append] at hfold
  exact hfold

omit [Crc32Fast] in
/-- The positions and new bytes of replacements, as the rewriter takes them. -/
theorem map_replacements (f : List UInt8 → Option (UInt64 × List UInt8))
    (updater : List UInt8 → List UInt8) :
    (rows.zipIdx.filterMap fun x => (f x.1).map fun r =>
        ((x.2, r.1, r.2, updater r.2) : ℕ × BTreeWriter.RowUpdate)).map
          (fun r => (r.1, r.2.2.2)) =
      (List.range rows.length).filterMap fun i =>
        ((f (rows.getD i [])).map fun r => updater r.2).map (Prod.mk i) := by
  have hrange : List.range rows.length = rows.zipIdx.map Prod.snd := by
    rw [List.zipIdx_map_snd, List.range_eq_range']
  rw [hrange, List.filterMap_map, List.map_filterMap]
  refine List.filterMap_congr fun x hx => ?_
  obtain ⟨row, i⟩ := x
  rw [Function.comp_apply, getD_of_mem_zipIdx hx]
  cases f row <;> rfl

end

end BoogyDb
