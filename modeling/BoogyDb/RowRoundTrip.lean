import BoogyDb.RowCodec
import BoogyDb.Lib.Except

/-!
# Round trip of whole rows

The directory readers are followed on an encoded row: entry `i` holds the id of
the `i`-th column in id order and its data offset modulo `2^16`
(`entryColId_encodeRow`, `entryOffset_encodeRow`).  So decoding a row and
extracting a column both come down to one question for each column, whether its
value is spelled where the wrapped offset lands (`OffsetsLand`), and the answer
decides the round trip (`encodeRow_roundTrips_iff`).
-/

namespace BoogyDb

open Bytes BinarySearch

/-! ## The columns in directory order -/

theorem sortColumns_perm (columns : List Column) : (sortColumns columns).Perm columns :=
  List.mergeSort_perm _ _

@[simp] theorem length_sortColumns (columns : List Column) :
    (sortColumns columns).length = columns.length :=
  (sortColumns_perm columns).length_eq

/-- With distinct ids the directory is strictly ascending. -/
theorem sortColumns_pairwise {columns : List Column} (hnodup : (columns.map Prod.fst).Nodup) :
    (sortColumns columns).Pairwise fun a b => a.1 < b.1 := by
  have hle : (sortColumns columns).Pairwise fun a b => decide (a.1 ≤ b.1) = true :=
    List.pairwise_mergeSort
      (fun a b c hab hbc => decide_eq_true ((of_decide_eq_true hab).trans (of_decide_eq_true hbc)))
      (fun a b => by simpa using le_total a.1 b.1) columns
  have hne : ((sortColumns columns).map Prod.fst).Nodup :=
    ((sortColumns_perm columns).map Prod.fst).nodup_iff.mpr hnodup
  rw [List.Nodup, List.pairwise_map] at hne
  refine (hle.and hne).imp fun {a b} h => ?_
  exact lt_of_le_of_ne (of_decide_eq_true h.1) h.2

/-- The id of the `i`-th column. -/
def colIdAt (sorted : List Column) (i : ℕ) : UInt16 := (sorted.map Prod.fst).getD i 0

theorem colIdAt_eq {sorted : List Column} {i : ℕ} (h : i < sorted.length) :
    colIdAt sorted i = sorted[i].1 := by
  simp [colIdAt, List.getD, h]

/-- Distinct ids tell the entries apart. -/
theorem colIdAt_inj {columns : List Column} (hnodup : (columns.map Prod.fst).Nodup) {i j : ℕ}
    (hi : i < (sortColumns columns).length) (hj : j < (sortColumns columns).length)
    (h : colIdAt (sortColumns columns) i = colIdAt (sortColumns columns) j) : i = j := by
  have hids := ((sortColumns_perm columns).map Prod.fst).nodup_iff.mpr hnodup
  rw [colIdAt_eq hi, colIdAt_eq hj] at h
  refine (@List.Nodup.getElem_inj_iff _ _ hids i (by simpa using hi) j (by simpa using hj)).mp ?_
  rw [List.getElem_map, List.getElem_map]
  exact h

/-- The data offset of the `i`-th column, before it is cut to 16 bits. -/
def dataOffset (sorted : List Column) (i : ℕ) : ℕ := (columnData (sorted.take i)).length

/-- The column data from where the directory sends a reader of column `i`. -/
def landing (sorted : List Column) (i : ℕ) : List UInt8 :=
  (columnData sorted).drop (dataOffset sorted i % 65536)

theorem length_directory (sofar : ℕ) (columns : List Column) :
    (directory sofar columns).length = columns.length * 4 := by
  induction columns generalizing sofar with
  | nil => simp [directory]
  | cons c rest ih =>
      obtain ⟨colId, val⟩ := c
      simp only [directory, List.length_append, length_leBytes, ih, List.length_cons]
      omega

theorem columnData_append (as bs : List Column) :
    columnData (as ++ bs) = columnData as ++ columnData bs :=
  List.flatMap_append

theorem directory_append (sofar : ℕ) (as bs : List Column) :
    directory sofar (as ++ bs) =
      directory sofar as ++ directory (sofar + (columnData as).length) bs := by
  induction as generalizing sofar with
  | nil => simp [directory, columnData]
  | cons c rest ih =>
      obtain ⟨colId, val⟩ := c
      have hlen : (columnData ((colId, val) :: rest)).length =
          (encodeValue val).length + (columnData rest).length := by
        simp [columnData]
      rw [List.cons_append, directory, directory, ih, hlen, ← Nat.add_assoc]
      simp only [List.append_assoc]

theorem length_columnData_sortColumns (columns : List Column) :
    (columnData (sortColumns columns)).length = (columnData columns).length :=
  ((sortColumns_perm columns).flatMap_right _).length_eq

theorem dataOffset_le (sorted : List Column) (i : ℕ) :
    dataOffset sorted i ≤ (columnData sorted).length := by
  have hsplit := columnData_append (sorted.take i) (sorted.drop i)
  rw [List.take_append_drop] at hsplit
  rw [hsplit, List.length_append, dataOffset]
  exact Nat.le_add_right _ _

/-- The value of column `i` is spelled at its untruncated offset. -/
theorem columnData_drop_dataOffset {sorted : List Column} {i : ℕ} (h : i < sorted.length) :
    (columnData sorted).drop (dataOffset sorted i) =
      encodeValue sorted[i].2 ++ columnData (sorted.drop (i + 1)) := by
  have hsplit := columnData_append (sorted.take i) (sorted.drop i)
  rw [List.take_append_drop] at hsplit
  rw [hsplit, dataOffset, List.drop_append_of_le_length le_rfl, List.drop_length,
    List.nil_append, List.drop_eq_getElem_cons h]
  rfl

/-! ## The directory of an encoded row -/

section

variable (rowid : UInt64) (columns : List Column)

theorem encodeRow_eq :
    encodeRow rowid columns = leBytes 8 rowid.toNat ++ (leBytes 2 columns.length ++
      (directory 0 (sortColumns columns) ++ columnData (sortColumns columns))) := by
  simp only [encodeRow, List.append_assoc]

theorem length_encodeRow :
    (encodeRow rowid columns).length =
      10 + columns.length * 4 + (columnData columns).length := by
  rw [encodeRow_eq]
  simp only [List.length_append, length_leBytes, length_directory, length_sortColumns,
    length_columnData_sortColumns]
  omega

theorem readRowid_encodeRow : readU64 (encodeRow rowid columns) 0 = .ok rowid := by
  have hread : readLe (encodeRow rowid columns) 0 8 = rowid.toNat :=
    readLe_eq_of_append (show _ = [] ++ _ from encodeRow_eq rowid columns) rfl rowid.toNat_lt
  rw [readU64_ok (by rw [length_encodeRow]; omega), hread, UInt64.ofNat_toNat]

theorem readNumCols_encodeRow :
    readU16 (encodeRow rowid columns) 8 = .ok (columns.length % 65536) := by
  have hread : readLe (encodeRow rowid columns) 8 2 = columns.length % 65536 :=
    readLe_append (encodeRow_eq rowid columns) (by rw [length_leBytes])
  rw [readU16_ok (by rw [length_encodeRow]; omega), hread]

/-- Everything before directory entry `i`. -/
private def beforeEntry (i : ℕ) : List UInt8 :=
  leBytes 8 rowid.toNat ++ (leBytes 2 columns.length ++
    directory 0 ((sortColumns columns).take i))

private theorem length_beforeEntry {i : ℕ} (h : i < columns.length) :
    (beforeEntry rowid columns i).length = dirStart + i * 4 := by
  simp only [beforeEntry, List.length_append, length_leBytes, length_directory, List.length_take,
    length_sortColumns, Nat.min_eq_left h.le, dirStart]
  omega

private theorem encodeRow_eq_entry {i : ℕ} (h : i < (sortColumns columns).length) :
    ∃ rest, encodeRow rowid columns = beforeEntry rowid columns i ++
      (leBytes 2 (sortColumns columns)[i].1.toNat ++
        (leBytes 2 (dataOffset (sortColumns columns) i) ++ rest)) := by
  obtain ⟨sorted, hsorted⟩ : ∃ sorted, sortColumns columns = sorted := ⟨_, rfl⟩
  simp only [encodeRow_eq, beforeEntry, hsorted] at h ⊢
  have hsplit : sorted = sorted.take i ++ sorted[i] :: sorted.drop (i + 1) := by
    rw [← List.drop_eq_getElem_cons h, List.take_append_drop]
  have hdir : directory 0 sorted = directory 0 (sorted.take i) ++
      directory (dataOffset sorted i) (sorted[i] :: sorted.drop (i + 1)) := by
    conv_lhs => rw [hsplit]
    rw [directory_append, Nat.zero_add, dataOffset]
  refine ⟨directory (dataOffset sorted i + (encodeValue sorted[i].2).length)
    (sorted.drop (i + 1)) ++ columnData sorted, ?_⟩
  rw [hdir, directory]
  simp only [List.append_assoc]

theorem entryColId_encodeRow {i : ℕ} (h : i < (sortColumns columns).length) :
    entryColId (encodeRow rowid columns) i = .ok (sortColumns columns)[i].1 := by
  have hlt : i < columns.length := by simpa using h
  obtain ⟨rest, hentry⟩ := encodeRow_eq_entry rowid columns h
  have hread : readLe (encodeRow rowid columns) (dirStart + i * 4) 2 =
      (sortColumns columns)[i].1.toNat :=
    readLe_eq_of_append hentry (length_beforeEntry rowid columns hlt).symm
      (sortColumns columns)[i].1.toNat_lt
  rw [entryColId, readU16_ok (by rw [length_encodeRow, dirStart]; omega), ok_bind, hread,
    pure_eq_ok, UInt16.ofNat_toNat]

theorem entryOffset_encodeRow {i : ℕ} (h : i < (sortColumns columns).length) :
    entryOffset (encodeRow rowid columns) i = .ok (dataOffset (sortColumns columns) i % 65536) := by
  have hlt : i < columns.length := by simpa using h
  obtain ⟨rest, hentry⟩ := encodeRow_eq_entry rowid columns h
  rw [← List.append_assoc] at hentry
  have hread : readLe (encodeRow rowid columns) (dirStart + i * 4 + 2) 2 =
      dataOffset (sortColumns columns) i % 65536 :=
    readLe_append hentry
      (by rw [List.length_append, length_beforeEntry rowid columns hlt, length_leBytes])
  rw [entryOffset, readU16_ok (by rw [length_encodeRow, dirStart]; omega), hread]

/-- Following a data offset into the column data. -/
theorem decodeValueAt_encodeRow {off : ℕ} (h : off ≤ (columnData (sortColumns columns)).length) :
    decodeValueAt (encodeRow rowid columns) (dirStart + columns.length * 4 + off) =
      (decodeValue ((columnData (sortColumns columns)).drop off) >>= fun p => .ok p.1) := by
  have hlen := length_encodeRow rowid columns
  have hdrop : (encodeRow rowid columns).drop (dirStart + columns.length * 4 + off) =
      (columnData (sortColumns columns)).drop off := by
    have hassoc : encodeRow rowid columns =
        (leBytes 8 rowid.toNat ++ (leBytes 2 columns.length ++
          directory 0 (sortColumns columns))) ++ columnData (sortColumns columns) := by
      rw [encodeRow_eq]
      simp only [List.append_assoc]
    rw [hassoc, List.drop_append, List.drop_eq_nil_of_le, List.nil_append]
    · congr 1
      simp only [List.length_append, length_leBytes, length_directory, length_sortColumns, dirStart]
      omega
    · simp only [List.length_append, length_leBytes, length_directory, length_sortColumns, dirStart]
      omega
  rw [length_columnData_sortColumns] at h
  rw [decodeValueAt, bytesOf_ok (by rw [hlen, dirStart]; omega) le_rfl, ok_bind, slice_to_end,
    hdrop]
  rfl

/-- What a reader that follows the directory to column `i` decodes. -/
theorem decodeColumn_encodeRow {i : ℕ} :
    decodeValueAt (encodeRow rowid columns)
        (dirStart + columns.length * 4 + dataOffset (sortColumns columns) i % 65536) =
      (decodeValue (landing (sortColumns columns) i) >>= fun p => .ok p.1) :=
  decodeValueAt_encodeRow rowid columns
    ((Nat.mod_le _ _).trans (dataOffset_le (sortColumns columns) i))

theorem length_encodeValue_le {i : ℕ} (h : i < (sortColumns columns).length) :
    (encodeValue (sortColumns columns)[i].2).length ≤ (encodeRow rowid columns).length := by
  have hdrop := congrArg List.length (columnData_drop_dataOffset h)
  rw [List.length_append, List.length_drop, length_columnData_sortColumns] at hdrop
  rw [length_encodeRow]
  omega

end

/-! ## The round trip -/

/-- Decoding the encoded row gives back rowid and columns in id order, and
extraction finds every column of the row and no other. -/
structure RowRoundTrips (rowid : UInt64) (columns : List Column) : Prop where
  decode : ∃ row, decodeRow (encodeRow rowid columns) = .ok row ∧ row.id = rowid ∧
    row.columns.Perm columns ∧ row.columns.Pairwise fun a b => a.1 < b.1
  present : ∀ c v, (c, v) ∈ columns → extractColumn (encodeRow rowid columns) c = .ok (some v)
  absent : ∀ c, c ∉ columns.map Prod.fst → extractColumn (encodeRow rowid columns) c = .ok none

/-- The column count fits its field, and every data offset either fits in 16
bits or wraps to a place where the same value is spelled. -/
structure OffsetsLand (columns : List Column) : Prop where
  few : columns.length < 65536
  lands : ∀ i (h : i < (sortColumns columns).length), dataOffset (sortColumns columns) i < 65536 ∨
    SpellsValue (landing (sortColumns columns) i) (sortColumns columns)[i].2

section

variable {rowid : UInt64} {columns : List Column}

theorem OffsetsLand.spells (h : OffsetsLand columns) {i : ℕ}
    (hi : i < (sortColumns columns).length) :
    SpellsValue (landing (sortColumns columns) i) (sortColumns columns)[i].2 := by
  rcases h.lands i hi with hfit | hspell
  · refine .inl ⟨columnData ((sortColumns columns).drop (i + 1)), ?_⟩
    rw [landing, Nat.mod_eq_of_lt hfit, columnData_drop_dataOffset hi]
  · exact hspell

/-- A landing that spells the column is decoded to it, and conversely. -/
theorem decodeLanding_iff (hsize : (encodeRow rowid columns).length < 2 ^ 32) {i : ℕ}
    (hi : i < (sortColumns columns).length) :
    (decodeValue (landing (sortColumns columns) i) >>= fun p => Except.ok p.1) =
        .ok (sortColumns columns)[i].2 ↔
      SpellsValue (landing (sortColumns columns) i) (sortColumns columns)[i].2 := by
  rw [← decodeValue_ok_iff ((length_encodeValue_le rowid columns hi).trans_lt hsize), bind_eq_ok]
  constructor
  · rintro ⟨⟨v, n⟩, hdec, hv⟩
    cases hv
    exact ⟨n, hdec⟩
  · rintro ⟨n, hdec⟩
    exact ⟨_, hdec, rfl⟩

theorem decodeRow_encodeRow_iff (hfew : columns.length < 65536)
    (hsize : (encodeRow rowid columns).length < 2 ^ 32) :
    decodeRow (encodeRow rowid columns) = .ok ⟨rowid, sortColumns columns⟩ ↔
      ∀ i (h : i < (sortColumns columns).length),
        SpellsValue (landing (sortColumns columns) i) (sortColumns columns)[i].2 := by
  have hlen := length_encodeRow rowid columns
  have hcount : columns.length % 65536 = columns.length := Nat.mod_eq_of_lt hfew
  rw [decodeRow, ensureBytes_ok (by omega), ok_bind, readRowid_encodeRow, ok_bind,
    ensureBytes_ok (by omega), ok_bind, readNumCols_encodeRow, ok_bind, hcount,
    ensureBytes_ok (by rw [hlen, dirStart]; omega), ok_bind, bind_eq_ok]
  have hstep : ∀ i (h : i < (sortColumns columns).length),
      ((do
        let colId ← entryColId (encodeRow rowid columns) i
        let dataOffset ← entryOffset (encodeRow rowid columns) i
        let val ← decodeValueAt (encodeRow rowid columns)
          (dirStart + columns.length * 4 + dataOffset)
        pure (colId, val) : Result Column) = .ok (sortColumns columns)[i] ↔
      SpellsValue (landing (sortColumns columns) i) (sortColumns columns)[i].2) := by
    intro i h
    rw [entryColId_encodeRow rowid columns h, ok_bind, entryOffset_encodeRow rowid columns h,
      ok_bind, decodeColumn_encodeRow, ← decodeLanding_iff hsize h, bind_eq_ok]
    constructor
    · rintro ⟨v, hv, hpair⟩
      rw [pure_eq_ok, Except.ok.injEq] at hpair
      rw [hv, ← hpair]
    · intro hv
      exact ⟨_, hv, rfl⟩
  constructor
  · rintro ⟨cols, hcols, hrow⟩ i h
    rw [pure_eq_ok, Except.ok.injEq, DecodedRow.mk.injEq] at hrow
    rw [hrow.2, Except.mapM_range_eq_ok_iff] at hcols
    exact (hstep i h).mp (hcols.2 i h)
  · intro hall
    refine ⟨sortColumns columns, ?_, rfl⟩
    rw [Except.mapM_range_eq_ok_iff]
    exact ⟨length_sortColumns columns, fun i h => (hstep i h).mpr (hall i h)⟩

/-- A decoded row has as many columns as the count field says. -/
theorem length_of_decodeRow {row : DecodedRow}
    (h : decodeRow (encodeRow rowid columns) = .ok row) :
    row.columns.length = columns.length % 65536 := by
  have hlen := length_encodeRow rowid columns
  rw [decodeRow, ensureBytes_ok (by omega), ok_bind, readRowid_encodeRow, ok_bind,
    ensureBytes_ok (by omega), ok_bind, readNumCols_encodeRow, ok_bind] at h
  simp only [bind_eq_ok] at h
  obtain ⟨_, _, cols, hcols, hrow⟩ := h
  rw [pure_eq_ok, Except.ok.injEq] at hrow
  rw [← hrow]
  exact (Except.mapM_range_eq_ok_iff.mp hcols).1

/-- The search of the directory of an encoded row. -/
theorem bsearch_encodeRow (hnodup : (columns.map Prod.fst).Nodup) (c : UInt16) :
    ∃ res, bsearch (probeColumn (encodeRow rowid columns) c) 0 columns.length = .ok res ∧
      Splits (colIdAt (sortColumns columns)) c 0 columns.length res := by
  refine bsearch_spec 0 columns.length (Nat.zero_le _) ?_ ?_
  · intro i _ hi
    have h : i < (sortColumns columns).length := by simpa using hi
    rw [probeColumn, ensureBytes_ok (by rw [length_encodeRow, dirStart]; omega), ok_bind,
      entryColId_encodeRow rowid columns h, ok_bind, colIdAt_eq h]
    rfl
  · intro i j _ hij hj
    have h : j < (sortColumns columns).length := by simpa using hj
    rw [colIdAt_eq (hij.trans h), colIdAt_eq h]
    exact List.pairwise_iff_getElem.mp (sortColumns_pairwise hnodup) i j (hij.trans h) h hij

theorem extractColumn_present (hnodup : (columns.map Prod.fst).Nodup) (hland : OffsetsLand columns)
    (hsize : (encodeRow rowid columns).length < 2 ^ 32) {c : UInt16} {v : Value}
    (hmem : (c, v) ∈ columns) :
    extractColumn (encodeRow rowid columns) c = .ok (some v) := by
  have hlen := length_encodeRow rowid columns
  have hcount : columns.length % 65536 = columns.length := Nat.mod_eq_of_lt hland.few
  have hpos : columns.length ≠ 0 := (List.length_pos_of_mem hmem).ne'
  obtain ⟨⟨mid, found⟩, hsearch, hsplit⟩ := @bsearch_encodeRow rowid columns hnodup c
  obtain ⟨j, hj, hjval⟩ := List.mem_iff_getElem.mp ((sortColumns_perm columns).mem_iff.mpr hmem)
  have hjlt : j < columns.length := by simpa using hj
  have hkeyj : colIdAt (sortColumns columns) j = c := by
    rw [colIdAt_eq hj, hjval]
  cases found with
  | false => exact absurd hkeyj (hsplit.ne_of_miss rfl (Nat.zero_le _) hjlt)
  | true =>
      obtain ⟨hmid, hkey⟩ := hsplit.hit rfl
      have hmid' : mid < (sortColumns columns).length := by simpa using hmid
      have heq : mid = j := colIdAt_inj hnodup hmid' hj (hkey.trans hkeyj.symm)
      subst heq
      rw [extractColumn, ensureBytes_ok (by omega), ok_bind, ensureBytes_ok (by omega), ok_bind,
        readNumCols_encodeRow, ok_bind, hcount, if_neg hpos, hsearch, ok_bind]
      simp only [if_true]
      rw [entryOffset_encodeRow rowid columns hj, ok_bind, decodeColumn_encodeRow,
        (decodeLanding_iff hsize hj).mpr (hland.spells hj), ok_bind, hjval]
      rfl

theorem extractColumn_absent (hnodup : (columns.map Prod.fst).Nodup)
    (hfew : columns.length < 65536) {c : UInt16} (hmem : c ∉ columns.map Prod.fst) :
    extractColumn (encodeRow rowid columns) c = .ok none := by
  have hlen := length_encodeRow rowid columns
  have hcount : columns.length % 65536 = columns.length := Nat.mod_eq_of_lt hfew
  rw [extractColumn, ensureBytes_ok (by omega), ok_bind, ensureBytes_ok (by omega), ok_bind,
    readNumCols_encodeRow, ok_bind, hcount]
  by_cases hzero : columns.length = 0
  · rw [if_pos hzero]
    rfl
  · rw [if_neg hzero]
    obtain ⟨⟨mid, found⟩, hsearch, hsplit⟩ := @bsearch_encodeRow rowid columns hnodup c
    rw [hsearch, ok_bind]
    cases found with
    | false => rfl
    | true =>
        obtain ⟨hmid, hkey⟩ := hsplit.hit rfl
        have hmid' : mid < (sortColumns columns).length := by simpa using hmid
        have hin : c ∈ (sortColumns columns).map Prod.fst := by
          rw [← hkey, colIdAt_eq hmid']
          exact List.mem_map_of_mem (List.getElem_mem hmid')
        exact absurd (((sortColumns_perm columns).map Prod.fst).mem_iff.mp hin) hmem

/-- Column data of at most `2^16` bytes has only offsets that fit. -/
theorem offsetsLand_of_length_le (hfew : columns.length < 65536)
    (hdata : (columnData columns).length ≤ 65536) : OffsetsLand columns := by
  refine ⟨hfew, fun i h => .inl ?_⟩
  have hdrop := congrArg List.length (columnData_drop_dataOffset h)
  have hpos := length_encodeValue_pos (sortColumns columns)[i].2
  rw [List.length_append, List.length_drop, length_columnData_sortColumns] at hdrop
  omega

theorem offsetsLand_of_roundTrips (hnodup : (columns.map Prod.fst).Nodup)
    (hsize : (encodeRow rowid columns).length < 2 ^ 32) (h : RowRoundTrips rowid columns) :
    OffsetsLand columns := by
  obtain ⟨row, hrow, hid, hperm, hsorted⟩ := h.decode
  have hcount := length_of_decodeRow hrow
  have hfew : columns.length < 65536 := by
    rw [hperm.length_eq] at hcount
    omega
  have hcols : row.columns = sortColumns columns :=
    List.Perm.eq_of_pairwise (fun a b _ _ hab hba => absurd hab (lt_asymm hba)) hsorted
      (sortColumns_pairwise hnodup) (hperm.trans (sortColumns_perm columns).symm)
  have hdec : decodeRow (encodeRow rowid columns) = .ok ⟨rowid, sortColumns columns⟩ := by
    rw [hrow, ← hid, ← hcols]
  exact ⟨hfew, fun i hi => .inr ((decodeRow_encodeRow_iff hfew hsize).mp hdec i hi)⟩

theorem roundTrips_of_offsetsLand (hnodup : (columns.map Prod.fst).Nodup)
    (hsize : (encodeRow rowid columns).length < 2 ^ 32) (h : OffsetsLand columns) :
    RowRoundTrips rowid columns where
  decode := ⟨_, (decodeRow_encodeRow_iff h.few hsize).mpr fun _ hi => h.spells hi, rfl,
    sortColumns_perm columns, sortColumns_pairwise hnodup⟩
  present _ _ hmem := extractColumn_present hnodup h hsize hmem
  absent _ hmem := extractColumn_absent hnodup h.few hmem

end

/-- The default of `max_row_size`. -/
def defaultMaxRowSize : ℕ := 10 * 1024 * 1024

/-- **Rows below the default size limit round trip exactly when every data
offset survives its 16 bits.** -/
theorem encodeRow_roundTrips_iff {rowid : UInt64} {columns : List Column}
    (hnodup : (columns.map Prod.fst).Nodup)
    (hsize : (encodeRow rowid columns).length ≤ defaultMaxRowSize) :
    RowRoundTrips rowid columns ↔ OffsetsLand columns := by
  have hsmall : (encodeRow rowid columns).length < 2 ^ 32 :=
    hsize.trans_lt (by rw [defaultMaxRowSize]; omega)
  exact ⟨offsetsLand_of_roundTrips hnodup hsmall, roundTrips_of_offsetsLand hnodup hsmall⟩

theorem encodeRow_roundTrips_two_columns :
    RowRoundTrips 1 [(3, .boolean true), (0, .integer 7)] :=
  (encodeRow_roundTrips_iff (by decide) (by rw [length_encodeRow]; decide)).mpr
    (offsetsLand_of_length_le (by decide) (by decide))

/-- A blob of 65531 bytes pushes the next column to data offset `2^16`, which is
written as `0`: the integer is read back as the blob. -/
theorem encodeRow_not_roundTrips_wide_blob :
    ¬ ∀ (rowid : UInt64) (columns : List Column), (columns.map Prod.fst).Nodup →
      (encodeRow rowid columns).length ≤ defaultMaxRowSize → RowRoundTrips rowid columns := by
  intro hall
  obtain ⟨body, hbody⟩ : ∃ body : List UInt8, body.length = 65531 :=
    ⟨List.replicate 65531 0, List.length_replicate⟩
  set columns : List Column := [(0, .blob body), (1, .integer 7)] with hcols
  have hsorted : sortColumns columns = columns := by
    rw [sortColumns, List.mergeSort_of_pairwise]
    simp [hcols]
  have hnodup : (columns.map Prod.fst).Nodup := by simp [hcols]
  have hdata : (columnData columns).length = 65545 := by
    simp [hcols, columnData, encodeValue, hbody]
  have hsize : (encodeRow 1 columns).length = 65563 := by
    rw [length_encodeRow, hdata, hcols, List.length_cons, List.length_cons, List.length_nil]
  have hland := offsetsLand_of_roundTrips hnodup (by rw [hsize]; omega)
    (hall 1 columns hnodup (by rw [hsize, defaultMaxRowSize]; omega))
  have hoff : dataOffset columns 1 = 65536 := by
    simp [hcols, dataOffset, columnData, encodeValue, hbody]
  have hspell := hland.spells (show 1 < (sortColumns columns).length by simp [hcols])
  simp only [hsorted, landing, hoff] at hspell
  rcases hspell with ⟨rest, hrest⟩ | ⟨hbool, _⟩
  · simp [hcols, columnData, encodeValue, tagBlob, tagInteger] at hrest
  · simp [hcols] at hbool

end BoogyDb
