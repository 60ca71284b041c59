import BoogyDb.FilterRows
import BoogyDb.RowDecoders

/-!
# Patching an encoded row

`patch_row` finds the bytes of a column by its data offset and the one behind it, splices the
new value in and shifts the offsets behind it.  On an encoded row this gives the encoding of
the row with the value replaced (`patchRow_encodeRow_iff`), as long as the two offsets fit in 16
bits: an offset that does not fit is kept as its remainder, and the value is spliced in at the
wrong place.

A patch refuses to write such an offset, but it compares with 16 bits what is left of the
change of size after a cast to 32 bits.  So a change by `2^31` bytes or more can pass, and a
later patch of a column behind it reads a remainder.  `ReadsInPlace` excludes this; it holds
when every new value is shorter than `2^31` bytes (`readsInPlace_of_short`).
-/

namespace BoogyDb

open Bytes BinarySearch

/-! ## Replacing values -/

/-- The columns with the value of one of them replaced. -/
def replaceColumn (columns : List Column) (patch : Column) : List Column :=
  columns.map fun column => if column.1 = patch.1 then patch else column

def replaceColumns (columns patches : List Column) : List Column :=
  patches.foldl replaceColumn columns

section

variable {columns front back : List Column} {patch : Column} {c : UInt16} {old : Value}

@[simp] theorem length_replaceColumn : (replaceColumn columns patch).length = columns.length :=
  List.length_map _

/-- A column keeps its id. -/
theorem replaced_fst (column : Column) :
    (if column.1 = patch.1 then patch else column).1 = column.1 := by
  split
  · exact Eq.symm ‹_›
  · rfl

theorem ids_replaceColumn : (replaceColumn columns patch).map Prod.fst = columns.map Prod.fst := by
  rw [replaceColumn, List.map_map]
  exact List.map_congr_left fun column _ => replaced_fst column

/-- The order of the directory depends on the ids only. -/
theorem sortColumns_replaceColumn :
    sortColumns (replaceColumn columns patch) = replaceColumn (sortColumns columns) patch := by
  refine (List.map_mergeSort fun a _ b _ => ?_).symm
  rw [replaced_fst, replaced_fst]

/-- Columns with other ids are not replaced. -/
theorem replaceColumn_of_notMem (h : patch.1 ∉ columns.map Prod.fst) :
    replaceColumn columns patch = columns := by
  conv_rhs => rw [← List.map_id columns]
  refine List.map_congr_left fun column hcolumn => if_neg fun heq => h ?_
  rw [← heq]
  exact List.mem_map_of_mem hcolumn

/-- The directory around a column. -/
theorem exists_split (hmem : c ∈ columns.map Prod.fst) :
    ∃ front old back, sortColumns columns = front ++ (c, old) :: back := by
  obtain ⟨⟨c, old⟩, hcolumn, rfl⟩ := List.mem_map.mp hmem
  obtain ⟨front, back, hsplit⟩ :=
    List.append_of_mem ((sortColumns_perm columns).mem_iff.mpr hcolumn)
  exact ⟨front, old, back, hsplit⟩

/-- The directory around a column whose value is replaced. -/
theorem replaceColumn_split (hnodup : (columns.map Prod.fst).Nodup)
    (h : sortColumns columns = front ++ (patch.1, old) :: back) :
    sortColumns (replaceColumn columns patch) = front ++ patch :: back := by
  have hids := ((sortColumns_perm columns).map Prod.fst).nodup_iff.mpr hnodup
  rw [h, List.map_append, List.map_cons, List.nodup_middle, List.nodup_cons,
    List.mem_append, not_or] at hids
  obtain ⟨⟨hfront, hback⟩, -⟩ := hids
  rw [sortColumns_replaceColumn, h]
  show List.map _ (front ++ (patch.1, old) :: back) = _
  rw [List.map_append, List.map_cons, if_pos rfl]
  exact congrArg₂ (fun l r => l ++ patch :: r) (replaceColumn_of_notMem hfront)
    (replaceColumn_of_notMem hback)

end

/-! ## The directory behind a column -/

section

variable {pre post : List UInt8} {columns : List Column} {e sofar sofar' : ℕ} {sizeDiff : ℤ}

/-- The offset of the first entry of a directory. -/
theorem offsetOf_directory {colId : UInt16} {val : Value} {rest : List Column}
    (hpre : pre.length = dirStart + e * 4) :
    offsetOf (pre ++ (directory sofar ((colId, val) :: rest) ++ post)) e = sofar % 65536 := by
  refine @readLe_append _ (pre ++ leBytes 2 colId.toNat)
    (directory (sofar + (encodeValue val).length) rest ++ post) _ 2 sofar ?_ ?_
  · rw [directory]
    simp only [List.append_assoc]
  · rw [List.length_append, hpre, length_leBytes]

/-- One entry is shifted, and the next entry is behind it. -/
theorem shiftEntry_directory {colId : UInt16} {val : Value} {rest : List Column}
    (hpre : pre.length = dirStart + e * 4) (hdiff : (sofar' : ℤ) = sofar + sizeDiff) :
    shiftEntry sizeDiff (pre ++ (directory sofar ((colId, val) :: rest) ++ post)) e =
      if (sofar % 65536 : ℕ) + sizeDiff.bmod (2 ^ 32) ≥ 2 ^ 31 then overflowed
      else if (sofar % 65536 : ℕ) + sizeDiff.bmod (2 ^ 32) < 0 ∨
          (sofar % 65536 : ℕ) + sizeDiff.bmod (2 ^ 32) > 65535 then
        fail (.corruption "row offset overflow during patch")
      else .ok (pre ++ (leBytes 2 colId.toNat ++ leBytes 2 sofar') ++
        (directory (sofar + (encodeValue val).length) rest ++ post)) := by
  have hlen : dirStart + e * 4 + 4 ≤
      (pre ++ (directory sofar ((colId, val) :: rest) ++ post)).length := by
    simp only [List.length_append, hpre, directory, length_leBytes]
    omega
  rw [shiftEntry_eq hlen, offsetOf_directory hpre]
  refine if_congr Iff.rfl rfl ?_
  by_cases hrange : (sofar % 65536 : ℕ) + sizeDiff.bmod (2 ^ 32) < 0 ∨
      (sofar % 65536 : ℕ) + sizeDiff.bmod (2 ^ 32) > 65535
  · rw [if_pos hrange, if_pos hrange]
  rw [if_neg hrange, if_neg hrange]
  -- the new offset and the true one agree in their low 16 bits
  have hsame : leBytes 2 ((sofar % 65536 : ℕ) + sizeDiff.bmod (2 ^ 32)).toNat = leBytes 2 sofar' := by
    rw [← leBytes_mod 2 sofar']
    congr 1
    show _ = sofar' % 65536
    have hbmod := Int.bmod_emod (x := sizeDiff) (m := 2 ^ 32)
    omega
  rw [hsame, directory]
  congr 1
  have hoff : dirStart + e * 4 + 2 = (pre ++ leBytes 2 colId.toNat).length := by
    rw [List.length_append, hpre, length_leBytes]
  have hblit := blit_append_self (pre ++ leBytes 2 colId.toNat)
    (directory (sofar + (encodeValue val).length) rest ++ post)
    (show (leBytes 2 sofar').length = (leBytes 2 sofar).length by simp)
  rw [hoff]
  simp only [List.append_assoc] at hblit ⊢
  exact hblit

theorem columnData_cons (column : Column) :
    columnData (column :: columns) = encodeValue column.2 ++ columnData columns := rfl

theorem dataOffset_cons (column : Column) (i : ℕ) :
    dataOffset (column :: columns) (i + 1) =
      (encodeValue column.2).length + dataOffset columns i := by
  rw [dataOffset, dataOffset, List.take_succ_cons, columnData_cons, List.length_append]

/-- The offsets of columns whose data starts `sofar` bytes into the column data stay in 16 bits
when they are read back and a change of size is added as an `i32`. -/
def OffsetsAccepted (sofar : ℕ) (sizeDiff : ℤ) (columns : List Column) : Prop :=
  ∀ i < columns.length, 0 ≤ ((sofar + dataOffset columns i) % 65536 : ℕ) + sizeDiff.bmod (2 ^ 32) ∧
    ((sofar + dataOffset columns i) % 65536 : ℕ) + sizeDiff.bmod (2 ^ 32) ≤ 65535

theorem accepted_cons {column : Column} :
    OffsetsAccepted sofar sizeDiff (column :: columns) ↔
      (0 ≤ (sofar % 65536 : ℕ) + sizeDiff.bmod (2 ^ 32) ∧
        (sofar % 65536 : ℕ) + sizeDiff.bmod (2 ^ 32) ≤ 65535) ∧
      OffsetsAccepted (sofar + (encodeValue column.2).length) sizeDiff columns := by
  rw [OffsetsAccepted, List.length_cons, Nat.forall_lt_succ_left]
  refine and_congr Iff.rfl (forall₂_congr fun i _ => ?_)
  rw [dataOffset_cons, Nat.add_assoc]

/-- **The offsets behind a column are shifted** when all of them stay in 16 bits. -/
theorem shiftEntries_eq_ok_iff {b : List UInt8} (hpre : pre.length = dirStart + e * 4)
    (hdiff : (sofar' : ℤ) = sofar + sizeDiff) :
    (List.range' e columns.length).foldlM (shiftEntry sizeDiff)
        (pre ++ (directory sofar columns ++ post)) = .ok b ↔
      OffsetsAccepted sofar sizeDiff columns ∧ b = pre ++ (directory sofar' columns ++ post) := by
  induction columns generalizing pre e sofar sofar' with
  | nil =>
      constructor
      · intro h
        exact ⟨fun i hi => absurd hi (Nat.not_lt_zero i), (Except.ok.inj h).symm⟩
      · rintro ⟨_, hb⟩
        rw [hb]
        rfl
  | cons column columns ih =>
      obtain ⟨colId, val⟩ := column
      rw [accepted_cons, List.length_cons, List.range'_succ, List.foldlM_cons,
        shiftEntry_directory hpre hdiff]
      by_cases hbig : ((sofar % 65536 : ℕ) : ℤ) + sizeDiff.bmod (2 ^ 32) ≥ 2 ^ 31
      · rw [if_pos hbig]
        exact iff_of_false nofun fun h => by omega
      rw [if_neg hbig]
      by_cases hrange : ((sofar % 65536 : ℕ) : ℤ) + sizeDiff.bmod (2 ^ 32) < 0 ∨
          ((sofar % 65536 : ℕ) : ℤ) + sizeDiff.bmod (2 ^ 32) > 65535
      · rw [if_pos hrange]
        exact iff_of_false nofun fun h => by omega
      rw [if_neg hrange, ok_bind, ih]
      · rw [directory]
        simp only [List.append_assoc]
        exact and_congr_left fun _ => (and_iff_right (by omega)).symm
      · simp only [List.length_append, hpre, length_leBytes]
        omega
      · push_cast
        omega

/-- Offsets that fit before and after the change are shifted. -/
theorem accepted_of_fits (hdiff : (sofar' : ℤ) = sofar + sizeDiff)
    (h : ∀ i < columns.length, sofar + dataOffset columns i < 65536)
    (h' : ∀ i < columns.length, sofar' + dataOffset columns i < 65536) :
    OffsetsAccepted sofar sizeDiff columns := by
  intro i hi
  have hfit := h i hi
  have hfit' := h' i hi
  rw [Nat.mod_eq_of_lt hfit, Int.bmod_eq_of_le (by omega) (by omega)]
  push_cast
  omega

end

/-! ## One patch -/

/-- The row up to the entry of a column, whose data offset is the length of the data before. -/
def rowFront (rowid : UInt64) (count : ℕ) (front : List Column) (c : UInt16) : List UInt8 :=
  leBytes 8 rowid.toNat ++ (leBytes 2 count ++ (directory 0 front ++
    (leBytes 2 c.toNat ++ leBytes 2 (columnData front).length)))

theorem length_rowFront (rowid : UInt64) (count : ℕ) (front : List Column) (c : UInt16) :
    (rowFront rowid count front c).length = dirStart + (front.length + 1) * 4 := by
  simp only [rowFront, List.length_append, length_leBytes, length_directory, dirStart]
  omega

section

variable {rowid : UInt64} {columns front back : List Column} {c : UInt16} {old v : Value}

/-- An encoded row around a column. -/
theorem encodeRow_split (h : sortColumns columns = front ++ (c, old) :: back) :
    encodeRow rowid columns = rowFront rowid columns.length front c ++
      (directory ((columnData front).length + (encodeValue old).length) back ++
        (columnData front ++ (encodeValue old ++ columnData back))) := by
  rw [encodeRow_eq, h, directory_append, directory, columnData_append, columnData_cons, rowFront,
    Nat.zero_add]
  simp only [List.append_assoc]

theorem length_of_split (h : sortColumns columns = front ++ (c, old) :: back) :
    columns.length = front.length + 1 + back.length := by
  have hlen := length_sortColumns columns
  rw [h, List.length_append, List.length_cons] at hlen
  omega

theorem numColsOf_encodeRow (hfew : columns.length < 65536) :
    numColsOf (encodeRow rowid columns) = columns.length := by
  have hread := readNumCols_encodeRow rowid columns
  rw [readU16_ok (by rw [length_encodeRow]; omega), Nat.mod_eq_of_lt hfew] at hread
  exact Except.ok.inj hread

/-- The offset of the column. -/
theorem offsetOf_encodeRow (h : sortColumns columns = front ++ (c, old) :: back) :
    offsetOf (encodeRow rowid columns) front.length = (columnData front).length % 65536 := by
  have hrow : encodeRow rowid columns = leBytes 8 rowid.toNat ++ (leBytes 2 columns.length ++
      (directory 0 front ++ leBytes 2 c.toNat)) ++ (leBytes 2 (columnData front).length ++
        (directory ((columnData front).length + (encodeValue old).length) back ++
          (columnData front ++ (encodeValue old ++ columnData back)))) := by
    rw [encodeRow_split h, rowFront]
    simp only [List.append_assoc]
  refine readLe_append hrow ?_
  simp only [List.length_append, length_leBytes, length_directory, dirStart]
  omega

/-- The offset behind the column, when it is not the last one. -/
theorem offsetOf_encodeRow_succ (h : sortColumns columns = front ++ (c, old) :: back)
    (hback : back ≠ []) : offsetOf (encodeRow rowid columns) (front.length + 1) =
      ((columnData front).length + (encodeValue old).length) % 65536 := by
  obtain ⟨⟨colId, val⟩, rest, rfl⟩ := List.exists_cons_of_ne_nil hback
  rw [encodeRow_split h]
  exact offsetOf_directory (length_rowFront _ _ _ _)

/-- The search finds the column. -/
theorem search_encodeRow (hnodup : (columns.map Prod.fst).Nodup) (hfew : columns.length < 65536)
    (h : sortColumns columns = front ++ (c, old) :: back) :
    bsearch (probeUnchecked (encodeRow rowid columns) c) 0 (numColsOf (encodeRow rowid columns)) =
      .ok (front.length, true) := by
  obtain ⟨⟨mid, found⟩, hsearch, hsplit⟩ := @bsearch_encodeRow rowid columns hnodup c
  have hlen := length_of_split h
  have hkey : colIdAt (sortColumns columns) front.length = c := by
    rw [h, colIdAt, List.map_append, List.map_cons]
    simp
  cases found with
  | false => exact absurd hkey (hsplit.ne_of_miss rfl (Nat.zero_le _) (by omega))
  | true =>
      obtain ⟨hmid, hfound⟩ := hsplit.hit rfl
      have heq : mid = front.length :=
        colIdAt_inj hnodup (by simpa using hmid) (by rw [length_sortColumns]; omega)
          (hfound.trans hkey.symm)
      rw [← numColsOf_encodeRow hfew, heq] at hsearch
      exact found_unchecked hsearch

/-- The offsets that delimit a column fit in 16 bits. -/
def BoundsFit (front back : List Column) (old : Value) : Prop :=
  (columnData front).length < 65536 ∧
    (back ≠ [] → (columnData front).length + (encodeValue old).length < 65536)

theorem valueStart_encodeRow (hfew : columns.length < 65536)
    (h : sortColumns columns = front ++ (c, old) :: back) (hfit : BoundsFit front back old) :
    valueStart (encodeRow rowid columns) front.length =
      dirStart + columns.length * 4 + (columnData front).length := by
  rw [valueStart, colDataStart, numColsOf_encodeRow hfew, offsetOf_encodeRow h,
    Nat.mod_eq_of_lt hfit.1]

theorem length_encodeRow_split (h : sortColumns columns = front ++ (c, old) :: back) :
    (encodeRow rowid columns).length = dirStart + columns.length * 4 +
      ((columnData front).length + ((encodeValue old).length + (columnData back).length)) := by
  rw [length_encodeRow, ← length_columnData_sortColumns, h, columnData_append, columnData_cons,
    List.length_append, List.length_append, dirStart]

theorem valueEnd_encodeRow (hfew : columns.length < 65536)
    (h : sortColumns columns = front ++ (c, old) :: back) (hfit : BoundsFit front back old) :
    valueEnd (encodeRow rowid columns) front.length =
      dirStart + columns.length * 4 + ((columnData front).length + (encodeValue old).length) := by
  have hlen := length_of_split h
  rw [valueEnd, numColsOf_encodeRow hfew]
  by_cases hback : back = []
  · subst hback
    rw [if_neg (by rw [hlen]; simp), length_encodeRow_split h]
    rfl
  · have hpos := List.length_pos_iff.mpr hback
    rw [if_pos (by omega), valueStart, colDataStart, numColsOf_encodeRow hfew,
      offsetOf_encodeRow_succ h hback, Nat.mod_eq_of_lt (hfit.2 hback)]

/-- The value with all before it and all behind it. -/
theorem encodeRow_around (h : sortColumns columns = front ++ (c, old) :: back) :
    ∃ before, before.length = dirStart + columns.length * 4 + (columnData front).length ∧
      before = rowFront rowid columns.length front c ++
        (directory ((columnData front).length + (encodeValue old).length) back ++
          columnData front) ∧
      encodeRow rowid columns = before ++ (encodeValue old ++ columnData back) := by
  have hlen := length_of_split h
  refine ⟨_, ?_, rfl, ?_⟩
  · simp only [List.length_append, length_rowFront, length_directory]
    omega
  · rw [encodeRow_split h]
    simp only [List.append_assoc]

/-- **A patch of an encoded row** whose column is delimited by offsets that fit gives the
encoding of the row with the value replaced, or an offset is refused. -/
theorem patchRow_encodeRow_iff {b : List UInt8} (hnodup : (columns.map Prod.fst).Nodup)
    (hfew : columns.length < 65536) (h : sortColumns columns = front ++ (c, old) :: back)
    (hfit : BoundsFit front back old) :
    patchRow (encodeRow rowid columns) c v = .ok b ↔
      OffsetsAccepted ((columnData front).length + (encodeValue old).length)
        ((encodeValue v).length - (encodeValue old).length) back ∧
      b = encodeRow rowid (replaceColumn columns (c, v)) := by
  have hrow' := @encodeRow_split rowid (replaceColumn columns (c, v)) front back c v
    (replaceColumn_split hnodup h)
  rw [length_replaceColumn] at hrow'
  have hlen := length_of_split h
  have hsize := @length_encodeRow_split rowid columns front back c old h
  have hcount := @numColsOf_encodeRow rowid columns hfew
  have hvalueStart := @valueStart_encodeRow rowid columns front back c old hfew h hfit
  have hvalueEnd := @valueEnd_encodeRow rowid columns front back c old hfew h hfit
  obtain ⟨before, hbefore, hfront, hrow⟩ := @encodeRow_around rowid columns front back c old h
  have hinside : ValueInside (encodeRow rowid columns) front.length := by
    rw [ValueInside, hvalueStart, hvalueEnd, hsize]
    omega
  have hchange : sizeChange (encodeRow rowid columns) front.length v =
      (encodeValue v).length - (encodeValue old).length := by
    rw [sizeChange, hvalueStart, hvalueEnd]
    omega
  rw [patchRow_eq (by rw [hsize, dirStart]; omega), search_encodeRow hnodup hfew h, ok_bind,
    if_pos rfl, patchFound_inside (by rw [hcount]; omega) hinside, hchange]
  by_cases hsame : ((encodeValue v).length : ℤ) - (encodeValue old).length = 0
  · -- the new value is written over the old one
    have hwidth : (encodeValue v).length = (encodeValue old).length := by omega
    have hblit : blit (encodeRow rowid columns)
        (valueStart (encodeRow rowid columns) front.length) (encodeValue v) =
        encodeRow rowid (replaceColumn columns (c, v)) := by
      rw [hvalueStart, ← hbefore, hrow, blit_append_self _ _ hwidth, hrow', hwidth, hfront]
      simp only [List.append_assoc]
    rw [if_pos hsame, hsame, hblit]
    refine ⟨fun hok => ⟨fun i _ => ?_, (Except.ok.inj hok).symm⟩, fun hok => hok.2 ▸ rfl⟩
    rw [Int.zero_bmod]
    omega
  · -- the bytes are spliced, and the offsets behind them are shifted
    have hsplice : splice (encodeRow rowid columns) front.length v =
        rowFront rowid columns.length front c ++
          (directory ((columnData front).length + (encodeValue old).length) back ++
            (columnData front ++ (encodeValue v ++ columnData back))) := by
      have hend : dirStart + columns.length * 4 +
          ((columnData front).length + (encodeValue old).length) =
            before.length + (encodeValue old).length := by omega
      rw [splice, hvalueStart, hvalueEnd, hend, ← hbefore, hrow, List.take_left,
        List.drop_append, List.drop_eq_nil_of_le (Nat.le_add_right _ _), List.nil_append,
        Nat.add_sub_cancel_left, List.drop_left, hfront]
      simp only [List.append_assoc]
    have hback : columns.length - (front.length + 1) = back.length := by omega
    rw [if_neg hsame, hcount, hback, hsplice, hrow']
    exact shiftEntries_eq_ok_iff (length_rowFront _ _ _ _) (by push_cast; omega)

end

/-! ## Several patches -/

/-- Every data offset of the encoded row fits in 16 bits. -/
def OffsetsFit (columns : List Column) : Prop :=
  ∀ i < columns.length, dataOffset (sortColumns columns) i < 65536

/-- A patch reads the bounds of its column as they are. -/
def ReadsBounds (columns : List Column) (c : UInt16) : Prop :=
  ∀ front old back, sortColumns columns = front ++ (c, old) :: back → BoundsFit front back old

/-- A patch refuses none of the offsets that it shifts. -/
def ShiftsOffsets (columns : List Column) (patch : Column) : Prop :=
  ∀ front old back, sortColumns columns = front ++ (patch.1, old) :: back →
    OffsetsAccepted ((columnData front).length + (encodeValue old).length)
      ((encodeValue patch.2).length - (encodeValue old).length) back

/-- Until an offset is refused, every patch reads the bounds of its column as they are in the
row with the values replaced so far. -/
def ReadsInPlace : List Column → List Column → Prop
  | _, [] => True
  | columns, patch :: patches => ReadsBounds columns patch.1 ∧
      (ShiftsOffsets columns patch → ReadsInPlace (replaceColumn columns patch) patches)

/-- Patching gives the encoding of the row with the values replaced, and fails only when an
offset of a partially patched row does not fit in 16 bits. -/
structure PatchesAsEncoded (rowid : UInt64) (columns patches : List Column) : Prop where
  ok : ∀ b, patchRowMulti (encodeRow rowid columns) patches = .ok b →
    b = encodeRow rowid (replaceColumns columns patches)
  error : ∀ fault, patchRowMulti (encodeRow rowid columns) patches = .error fault →
    ∃ k ≤ patches.length, ¬ OffsetsFit (replaceColumns columns (patches.take k))

section

variable {rowid : UInt64} {columns patches front back : List Column} {patch : Column} {c : UInt16}
  {old v : Value}

theorem dataOffset_append (front rest : List Column) (i : ℕ) :
    dataOffset (front ++ rest) (front.length + i) =
      (columnData front).length + dataOffset rest i := by
  rw [dataOffset, List.take_length_add_append, columnData_append, List.length_append, dataOffset]

/-- The offsets around a column. -/
theorem OffsetsFit.split (hfit : OffsetsFit columns)
    (h : sortColumns columns = front ++ (c, old) :: back) :
    BoundsFit front back old ∧ ∀ i < back.length,
      (columnData front).length + (encodeValue old).length + dataOffset back i < 65536 := by
  have hlen := length_of_split h
  have hback : ∀ i < back.length,
      (columnData front).length + (encodeValue old).length + dataOffset back i < 65536 := by
    intro i hi
    have hoff := hfit (front.length + (i + 1)) (by omega)
    rwa [h, dataOffset_append, dataOffset_cons, ← Nat.add_assoc] at hoff
  refine ⟨⟨?_, fun hne => ?_⟩, hback⟩
  · have hoff := hfit (front.length + 0) (by omega)
    rw [h, dataOffset_append] at hoff
    omega
  · have hoff := hback 0 (List.length_pos_iff.mpr hne)
    omega

/-- Column data that is short enough has only offsets that fit. -/
theorem offsetsFit_of_length_lt (h : (columnData columns).length < 65536) : OffsetsFit columns :=
  fun _ _ => (dataOffset_le _ _).trans_lt ((length_columnData_sortColumns columns).symm ▸ h)

/-- A row has at least as many bytes of column data as it has columns. -/
theorem length_le_columnData (columns : List Column) :
    columns.length ≤ (columnData columns).length := by
  induction columns with
  | nil => exact le_rfl
  | cons column columns ih =>
      have hpos := length_encodeValue_pos column.2
      rw [columnData_cons, List.length_append, List.length_cons]
      omega

/-- One patch after the other. -/
theorem patchRowMulti_cons (data : List UInt8) (patch : Column) (patches : List Column) :
    patchRowMulti data (patch :: patches) =
      patchRow data patch.1 patch.2 >>= fun b => patchRowMulti b patches := by
  rw [patchRowMulti, List.foldlM_cons]
  rfl

/-- **Patches that read in place** give the encoding of the row with the values replaced. -/
theorem patchRowMulti_ok {b : List UInt8} (hnodup : (columns.map Prod.fst).Nodup)
    (hfew : columns.length < 65536) (hpresent : ∀ p ∈ patches, p.1 ∈ columns.map Prod.fst)
    (hreads : ReadsInPlace columns patches)
    (h : patchRowMulti (encodeRow rowid columns) patches = .ok b) :
    b = encodeRow rowid (replaceColumns columns patches) := by
  induction patches generalizing columns with
  | nil => exact (Except.ok.inj h).symm
  | cons patch patches ih =>
      obtain ⟨hpatch, hpresent⟩ := List.forall_mem_cons.mp hpresent
      obtain ⟨front, old, back, hsplit⟩ := exists_split hpatch
      rw [patchRowMulti_cons] at h
      obtain ⟨b', hb', hrest⟩ := bind_eq_ok.mp h
      have hshifts : ShiftsOffsets columns patch := fun front old back hsplit =>
        ((patchRow_encodeRow_iff hnodup hfew hsplit (hreads.1 _ _ _ hsplit)).mp hb').1
      obtain ⟨-, rfl⟩ :=
        (patchRow_encodeRow_iff hnodup hfew hsplit (hreads.1 _ _ _ hsplit)).mp hb'
      exact ih (by rw [ids_replaceColumn]; exact hnodup) (by rw [length_replaceColumn]; exact hfew)
        (by rw [ids_replaceColumn]; exact hpresent) (hreads.2 hshifts) hrest

/-- **Rows whose offsets fit are patched.** -/
theorem patchRowMulti_fits (hnodup : (columns.map Prod.fst).Nodup) (hfew : columns.length < 65536)
    (hpresent : ∀ p ∈ patches, p.1 ∈ columns.map Prod.fst)
    (hfit : ∀ k ≤ patches.length, OffsetsFit (replaceColumns columns (patches.take k))) :
    patchRowMulti (encodeRow rowid columns) patches =
      .ok (encodeRow rowid (replaceColumns columns patches)) := by
  induction patches generalizing columns with
  | nil => rfl
  | cons patch patches ih =>
      obtain ⟨hpatch, hpresent⟩ := List.forall_mem_cons.mp hpresent
      obtain ⟨front, old, back, hsplit⟩ := exists_split hpatch
      obtain ⟨hbounds, hback⟩ := (hfit 0 (Nat.zero_le _)).split hsplit
      obtain ⟨-, hback'⟩ := (hfit 1 (Nat.succ_pos _)).split (replaceColumn_split hnodup hsplit)
      have haccepted : OffsetsAccepted ((columnData front).length + (encodeValue old).length)
          ((encodeValue patch.2).length - (encodeValue old).length) back :=
        accepted_of_fits (by push_cast; omega) hback hback'
      rw [patchRowMulti_cons, (patchRow_encodeRow_iff hnodup hfew hsplit hbounds).mpr
        ⟨haccepted, rfl⟩, ok_bind]
      exact ih (by rw [ids_replaceColumn]; exact hnodup) (by rw [length_replaceColumn]; exact hfew)
        (by rw [ids_replaceColumn]; exact hpresent)
        fun k hk => hfit (k + 1) (Nat.succ_le_succ hk)

/-- A patch that refuses no offset, and is shorter than `2^31` bytes, leaves only offsets that
fit. -/
theorem OffsetsFit.replaceColumn (hfit : OffsetsFit columns)
    (hnodup : (columns.map Prod.fst).Nodup) (hpresent : patch.1 ∈ columns.map Prod.fst)
    (hshort : (encodeValue patch.2).length < 2 ^ 31) (hshifts : ShiftsOffsets columns patch) :
    OffsetsFit (replaceColumn columns patch) := by
  obtain ⟨front, old, back, hsplit⟩ := exists_split hpresent
  obtain ⟨hbounds, hback⟩ := hfit.split hsplit
  have hlen := length_of_split hsplit
  intro i hi
  rw [length_replaceColumn] at hi
  rw [replaceColumn_split hnodup hsplit]
  rcases Nat.lt_or_ge front.length i with hlt | hge
  · -- behind the column: the offset that was accepted
    obtain ⟨k, rfl⟩ : ∃ k, i = front.length + (k + 1) := ⟨i - front.length - 1, by omega⟩
    have hk : k < back.length := by omega
    have hoff := hback k hk
    have hold := hbounds.2 (List.ne_nil_of_length_pos (by omega))
    obtain ⟨-, hmax⟩ := hshifts front old back hsplit k hk
    rw [Nat.mod_eq_of_lt hoff, Int.bmod_eq_of_le (by omega) (by omega)] at hmax
    rw [dataOffset_append, dataOffset_cons]
    push_cast at hmax
    omega
  · have hsame : dataOffset (front ++ patch :: back) i = dataOffset (sortColumns columns) i := by
      rw [hsplit, dataOffset, dataOffset, List.take_append_of_le_length hge,
        List.take_append_of_le_length hge]
    rw [hsame]
    exact hfit i hi

/-- **Patches shorter than `2^31` bytes** read in place. -/
theorem readsInPlace_of_short (hnodup : (columns.map Prod.fst).Nodup) (hfit : OffsetsFit columns)
    (hpresent : ∀ p ∈ patches, p.1 ∈ columns.map Prod.fst)
    (hshort : ∀ p ∈ patches, (encodeValue p.2).length < 2 ^ 31) : ReadsInPlace columns patches := by
  induction patches generalizing columns with
  | nil => trivial
  | cons patch patches ih =>
      obtain ⟨hpatch, hpresent⟩ := List.forall_mem_cons.mp hpresent
      obtain ⟨hpatchShort, hshort⟩ := List.forall_mem_cons.mp hshort
      refine ⟨fun front old back hsplit => (hfit.split hsplit).1, fun hshifts => ?_⟩
      exact ih (by rw [ids_replaceColumn]; exact hnodup)
        (hfit.replaceColumn hnodup hpatch hpatchShort hshifts)
        (by rw [ids_replaceColumn]; exact hpresent) hshort

end

/-- **Patching an encoded row** fails only when an offset does not fit, and gives the encoding
of the row with the values replaced when its patches read in place. -/
theorem patchRowMulti_encodeRow (rowid : UInt64) {columns patches : List Column}
    (hnodup : (columns.map Prod.fst).Nodup) (hdata : (columnData columns).length < 65536)
    (hpresent : ∀ p ∈ patches, p.1 ∈ columns.map Prod.fst) :
    (∀ fault, patchRowMulti (encodeRow rowid columns) patches = .error fault →
      ∃ k ≤ patches.length, ¬ OffsetsFit (replaceColumns columns (patches.take k))) ∧
    (ReadsInPlace columns patches → PatchesAsEncoded rowid columns patches) := by
  have hfew : columns.length < 65536 := (length_le_columnData columns).trans_lt hdata
  have herror : ∀ fault, patchRowMulti (encodeRow rowid columns) patches = .error fault →
      ∃ k ≤ patches.length, ¬ OffsetsFit (replaceColumns columns (patches.take k)) := by
    intro fault h
    by_contra hall
    push Not at hall
    rw [patchRowMulti_fits hnodup hfew hpresent hall] at h
    cases h
  exact ⟨herror, fun hreads => ⟨fun _ h => patchRowMulti_ok hnodup hfew hpresent hreads h, herror⟩⟩

theorem patchRowMulti_encodeRow_two :
    PatchesAsEncoded 1 [(0, .null), (1, .null)] [(1, .boolean true), (0, .integer 7)] :=
  (patchRowMulti_encodeRow 1 (by decide) (by decide) (by decide)).2
    (readsInPlace_of_short (by decide) (offsetsFit_of_length_lt (by decide)) (by decide)
      (by decide))

/-! ### A change of size that is a multiple of `2^32` -/

/-- A blob of `n` zero bytes. -/
def zeroBlob (n : ℕ) : Value := .blob (List.replicate n 0)

theorem length_zeroBlob (n : ℕ) : (encodeValue (zeroBlob n)).length = n + 5 := by
  simp only [encodeValue, zeroBlob, List.length_cons, List.length_append, length_leBytes,
    List.length_replicate]
  omega

/-- The second patch reads the offset of the second column as `1` and cuts the blob off. -/
theorem wideBlob_not_asEncoded : ¬ PatchesAsEncoded 1 [(0, .null), (1, .null)]
    [(0, zeroBlob (2 ^ 32 - 4)), (1, .boolean true)] := by
  intro h
  obtain ⟨w, hw⟩ : ∃ w, w = 2 ^ 32 := ⟨_, rfl⟩
  have hwide : (encodeValue (zeroBlob (2 ^ 32 - 4))).length = w + 1 := by
    rw [length_zeroBlob]
    omega
  generalize zeroBlob (2 ^ 32 - 4) = blob at h hwide
  have hnull : (encodeValue .null).length = 1 := rfl
  have htrue : (encodeValue (.boolean true)).length = 2 := rfl
  have hsorted : ∀ v : Value, sortColumns [(0, v), (1, .null)] = [] ++ (0, v) :: [(1, .null)] := by
    intro v
    exact sortColumns_eq_self (by simp)
  -- the first patch adds `2^32` to the offset of the second column, which is `0` as an `i32`
  have hfirst : patchRow (encodeRow 1 [(0, .null), (1, .null)]) 0 blob =
      .ok (encodeRow 1 [(0, blob), (1, .null)]) := by
    refine (patchRow_encodeRow_iff (by decide) (by decide) (hsorted .null)
      ⟨by decide, fun _ => by decide⟩).mpr ⟨?_, rfl⟩
    intro i hi
    obtain rfl : i = 0 := Nat.lt_one_iff.mp hi
    have hdiff : ((encodeValue blob).length : ℤ) - (encodeValue .null).length = 2 ^ 32 := by omega
    rw [hdiff]
    decide
  -- the second patch finds its column behind the directory, at offset `1`
  obtain ⟨row, hrow⟩ : ∃ row, row = encodeRow 1 [(0, blob), (1, .null)] := ⟨_, rfl⟩
  have hsplit : sortColumns [(0, blob), (1, .null)] = [(0, blob)] ++ (1, .null) :: [] := hsorted blob
  have hfront : (columnData [(0, blob)]).length = w + 1 := by
    rw [← hwide]
    exact congrArg List.length (List.flatMap_singleton ..)
  have hcount : numColsOf row = 2 := hrow ▸ numColsOf_encodeRow (by simp)
  have hlen : row.length = w + 20 := by
    have hnil : (columnData []).length = 0 := rfl
    rw [hrow, length_encodeRow_split hsplit, hfront, hnull, hnil]
    simp only [List.length_cons, List.length_nil, dirStart]
    omega
  have hstart : valueStart row 1 = 19 := by
    have hoff : offsetOf row 1 = (columnData [(0, blob)]).length % 65536 :=
      hrow ▸ offsetOf_encodeRow hsplit
    rw [valueStart, colDataStart, hcount, hoff, hfront, dirStart]
    omega
  have hend : valueEnd row 1 = row.length := by
    rw [valueEnd, hcount, if_neg (by decide)]
  have hinside : ValueInside row 1 := by
    rw [ValueInside, hstart, hend]
    omega
  have hchange : sizeChange row 1 (.boolean true) ≠ 0 := by
    rw [sizeChange, hstart, hend, htrue]
    omega
  have hsearch : bsearch (probeUnchecked row 1) 0 (numColsOf row) = .ok (1, true) :=
    hrow ▸ search_encodeRow (by simp) (by simp) hsplit
  have hsecond : patchRow row 1 (.boolean true) = .ok (splice row 1 (.boolean true)) := by
    rw [patchRow_eq (by omega), hsearch, ok_bind, if_pos rfl,
      patchFound_inside (by rw [hcount]; decide) hinside, if_neg hchange, hcount]
    rfl
  have hboth : patchRowMulti (encodeRow 1 [(0, .null), (1, .null)])
      [(0, blob), (1, .boolean true)] = .ok (splice row 1 (.boolean true)) := by
    rw [patchRowMulti_cons, hfirst, ok_bind, ← hrow, patchRowMulti_cons, hsecond]
    rfl
  -- what is left is too short
  have hleft : (splice row 1 (.boolean true)).length = 21 := by
    rw [splice, hstart, hend, List.drop_length, List.append_nil, List.length_append,
      List.length_take_of_le (by omega), htrue]
  have hreplaced : replaceColumns [(0, .null), (1, .null)] [(0, blob), (1, .boolean true)] =
      [(0, blob), (1, .boolean true)] := rfl
  have hlong : w ≤ (encodeRow 1 [(0, blob), (1, .boolean true)]).length := by
    rw [length_encodeRow, columnData_cons, List.length_append, hwide]
    omega
  have hb := h.ok _ hboth
  rw [hreplaced] at hb
  rw [← hb, hleft] at hlong
  omega

end BoogyDb
