import BoogyDb.Lib.Except
import BoogyDb.RowCodec

/-!
# The row decoders on any bytes

The decoders of `row.rs` check that the row id, the column count and the directory entries
they probe lie in the data.  They do not check

* a data offset, before they slice the data from it: a column can begin behind the end;
* the order of two neighbouring offsets, before they slice or subtract: a column can end
  before it begins, or behind the end;
* in `patch_row`, the entries that the binary search probes, and the sum of an offset and the
  change of size, which may leave the range of an `i32`.

For each decoder there is a theorem that says when it completes, in terms of the directory;
`decoders_complete_iff` puts them together.
-/

namespace BoogyDb

open Bytes BinarySearch

variable {data : List UInt8} {target : UInt16} {newVal : Value} {i mid n off : ℕ}

/-! ## Values -/

theorem completes_ensureBytes (data : List UInt8) (offset need : ℕ) :
    Completes (ensureBytes data offset need) := by
  unfold ensureBytes
  exact .ite (fun _ => completes_fail _) fun _ => completes_ok _

/-- A step behind a check of the length. -/
theorem Completes.ensure {α : Type} {f : Unit → Result α} {offset need : ℕ}
    (h : offset + need ≤ data.length → Completes (f ())) :
    Completes (ensureBytes data offset need >>= f) :=
  (completes_ensureBytes _ _ _).bind fun _ hok => h (ensureBytes_eq_ok hok)

/-- **A value is decoded or refused**, whatever the bytes. -/
theorem completes_decodeValue (data : List UInt8) : Completes (decodeValue data) := by
  unfold decodeValue
  refine .ensure fun _ => ?_
  have hcounted : ∀ g : ℕ → List UInt8 → Result (Value × ℕ), (∀ len bs, Completes (g len bs)) →
      Completes (do
        ensureBytes data 1 4
        let len ← readU32 data 1
        ensureBytes data 5 len
        let bs ← bytesOf data 5 (5 + len)
        g len bs) := by
    intro g hg
    refine .ensure fun h4 => ?_
    rw [readU32_ok (by omega), ok_bind]
    refine .ensure fun hlen => ?_
    rw [bytesOf_ok (Nat.le_add_right _ _) hlen, ok_bind]
    exact hg _ _
  have hword : ∀ g : UInt64 → Value × ℕ, Completes (do
      ensureBytes data 1 8
      let w ← readU64 data 1
      pure (g w)) := by
    intro g
    refine .ensure fun h8 => ?_
    rw [readU64_ok (by omega), ok_bind]
    exact completes_ok _
  split
  · exact completes_ok _
  · refine hcounted _ fun len bs => ?_
    cases fromUtf8? bs with
    | some s => exact completes_ok _
    | none => exact completes_fail _
  · exact hword fun i => (.integer i.toInt64, 9)
  · exact hword fun bits => (.real bits, 9)
  · exact hcounted (fun len bs => pure (.blob bs, 5 + len)) fun len bs => completes_ok _
  · exact .ensure fun _ => completes_ok _
  · exact completes_fail _

theorem completes_bytesOf_iff {start stop : ℕ} :
    Completes (bytesOf data start stop) ↔ start ≤ stop ∧ stop ≤ data.length := by
  constructor
  · intro h
    by_contra hout
    rw [bytesOf, if_neg hout] at h
    exact not_completes_panic h
  · intro hin
    rw [bytesOf_ok hin.1 hin.2]
    exact completes_ok _

/-- A value behind the end of the data cannot be sliced off. -/
theorem completes_decodeValueAt_iff : Completes (decodeValueAt data off) ↔ off ≤ data.length := by
  constructor
  · intro h
    exact (completes_bytesOf_iff.mp h.of_bind).1
  · intro hin
    rw [decodeValueAt, bytesOf_ok hin le_rfl, ok_bind]
    exact (completes_decodeValue _).bind fun _ _ => completes_ok _

/-! ## The directory -/

/-- The column count. -/
def numColsOf (data : List UInt8) : ℕ := readLe data 8 2

/-- Where the directory ends and the column data starts. -/
def colDataStart (data : List UInt8) : ℕ := dirStart + numColsOf data * 4

/-- The data offset of directory entry `i`. -/
def offsetOf (data : List UInt8) (i : ℕ) : ℕ := readLe data (dirStart + i * 4 + 2) 2

/-- Where the value of entry `i` starts, and where it ends. -/
def valueStart (data : List UInt8) (i : ℕ) : ℕ := colDataStart data + offsetOf data i

def valueEnd (data : List UInt8) (i : ℕ) : ℕ :=
  if i + 1 < numColsOf data then valueStart data (i + 1) else data.length

/-- The value of entry `i` is a slice of the data. -/
def ValueInside (data : List UInt8) (i : ℕ) : Prop :=
  valueStart data i ≤ valueEnd data i ∧ valueEnd data i ≤ data.length

theorem offsetOf_lt (data : List UInt8) (i : ℕ) : offsetOf data i < 65536 := readLe_lt _ _ _

/-- A value in the data is behind a whole directory. -/
theorem ValueInside.directory (h : ValueInside data i) : colDataStart data ≤ data.length :=
  (Nat.le_add_right _ _).trans (h.1.trans h.2)

theorem entryColId_completes (h : dirStart + i * 4 + 2 ≤ data.length) :
    entryColId data i = .ok (UInt16.ofNat (readLe data (dirStart + i * 4) 2)) := by
  rw [entryColId, readU16_ok h]
  rfl

theorem entryOffset_ok (h : dirStart + i * 4 + 4 ≤ data.length) :
    entryOffset data i = .ok (offsetOf data i) := by
  rw [entryOffset, readU16_ok (by omega)]
  rfl

theorem entryOffset_panics (h : ¬ dirStart + i * 4 + 4 ≤ data.length) :
    entryOffset data i = panic := by
  rw [entryOffset, readU16, bytesOf, if_neg (by omega)]
  rfl

/-! ## Decoding a row -/

theorem completes_extractId (data : List UInt8) : Completes (extractId data) := by
  unfold extractId
  refine .ensure fun h8 => ?_
  rw [readU64_ok (by omega)]
  exact completes_ok _

/-- **`decode_row` completes** when no column behind the end is reached: an earlier column
must be refused before. -/
theorem completes_decodeRow_iff : Completes (decodeRow data) ↔
    (10 ≤ data.length → colDataStart data ≤ data.length → ∀ i < numColsOf data,
      (∀ j < i, ∃ v, decodeValueAt data (valueStart data j) = .ok v) →
        valueStart data i ≤ data.length) := by
  unfold decodeRow
  by_cases h10 : 10 ≤ data.length
  · rw [ensureBytes_ok (by omega), ok_bind, readU64_ok (by omega), ok_bind,
      ensureBytes_ok (by omega), ok_bind, readU16_ok (by omega), ok_bind]
    rw [show readLe data 8 2 = numColsOf data from rfl]
    by_cases hdir : colDataStart data ≤ data.length
    · rw [ensureBytes_ok hdir, ok_bind]
      simp only [h10, hdir, true_implies]
      -- each turn is the decoding of one value
      have hturn : ∀ i < numColsOf data, (do
          let colId ← entryColId data i
          let dataOffset ← entryOffset data i
          let val ← decodeValueAt data (dirStart + numColsOf data * 4 + dataOffset)
          pure (colId, val)) = (decodeValueAt data (valueStart data i) >>= fun val =>
            .ok (UInt16.ofNat (readLe data (dirStart + i * 4) 2), val)) := by
        intro i hi
        rw [colDataStart] at hdir
        rw [entryColId_completes (by omega), ok_bind, entryOffset_ok (by omega), ok_bind]
        rfl
      have hloop := Except.mapM_congr fun i hi => hturn i (List.mem_range.mp hi)
      rw [hloop]
      have hbind : ∀ x : Result (List Column), Completes (x >>= fun columns =>
          pure (⟨UInt64.ofNat (readLe data 0 8), columns⟩ : DecodedRow)) ↔ Completes x :=
        fun x => ⟨fun h => h.of_bind, fun h => h.bind fun _ _ => completes_ok _⟩
      rw [hbind, completes_mapM_range_iff]
      refine forall₂_congr fun i hi => ?_
      -- a turn completes when its value does, and returns when its value does
      have hvalue : Completes (decodeValueAt data (valueStart data i) >>= fun val =>
          (.ok (UInt16.ofNat (readLe data (dirStart + i * 4) 2), val) : Result Column)) ↔
            valueStart data i ≤ data.length :=
        ⟨fun h => completes_decodeValueAt_iff.mp h.of_bind,
          fun h => (completes_decodeValueAt_iff.mpr h).bind fun _ _ => completes_ok _⟩
      rw [hvalue]
      refine imp_congr_left (forall₂_congr fun j hj => ?_)
      constructor
      · rintro ⟨c, hc⟩
        obtain ⟨v, hv, -⟩ := bind_eq_ok.mp hc
        exact ⟨v, hv⟩
      · rintro ⟨v, hv⟩
        exact ⟨_, by rw [hv, ok_bind]⟩
    · refine iff_of_true ?_ fun _ h => absurd h hdir
      exact .ensure fun h => absurd h hdir
  · refine iff_of_true ?_ fun h => absurd h h10
    refine .ensure fun h8 => ?_
    rw [readU64_ok (by omega), ok_bind]
    exact .ensure fun h => absurd h h10

/-! ## Looking a column up -/

/-- The search of the two readers, which check each entry they probe. -/
theorem completes_search (data : List UInt8) (target : UInt16) (lo hi : ℕ) :
    Completes (bsearch (probeColumn data target) lo hi) := by
  intro fault h
  obtain ⟨i, -, -, hprobe⟩ := bsearch_error h
  have hcompletes : Completes (probeColumn data target i) := by
    unfold probeColumn
    refine .ensure fun h4 => ?_
    rw [entryColId_completes (by omega), ok_bind]
    exact completes_ok _
  exact hcompletes fault hprobe

/-- An entry that was found was checked. -/
theorem entry_of_found {lo hi : ℕ} (h : bsearch (probeColumn data target) lo hi = .ok (mid, true)) :
    dirStart + mid * 4 + 4 ≤ data.length := by
  fun_induction bsearch (probeColumn data target) lo hi with
  | case1 lo hi hlt mid' e hprobe => cases h
  | case2 lo hi hlt mid' hprobe ih => exact ih h
  | case3 lo hi hlt mid' hprobe ih => exact ih h
  | case4 lo hi hlt mid' hprobe =>
      obtain rfl : mid' = mid := congrArg Prod.fst (Except.ok.inj h)
      obtain ⟨u, hu, -⟩ := bind_eq_ok.mp hprobe
      exact ensureBytes_eq_ok hu
  | case5 lo hi hlt => cases h

/-- The two readers look an entry up and go on with it. -/
theorem completes_lookup_iff {α : Type} (found : ℕ → ℕ → Result α) (missing : α) :
    Completes (do
      ensureBytes data 0 8
      ensureBytes data 8 2
      let numCols ← readU16 data 8
      if numCols = 0 then pure missing
      else
        let (mid, hit) ← bsearch (probeColumn data target) 0 numCols
        if hit then found numCols mid else pure missing) ↔
    (10 ≤ data.length → ∀ mid,
      bsearch (probeColumn data target) 0 (numColsOf data) = .ok (mid, true) →
        Completes (found (numColsOf data) mid)) := by
  by_cases h10 : 10 ≤ data.length
  · rw [ensureBytes_ok (by omega), ok_bind, ensureBytes_ok (by omega), ok_bind,
      readU16_ok (by omega), ok_bind, show readLe data 8 2 = numColsOf data from rfl]
    simp only [h10, true_implies]
    by_cases hzero : numColsOf data = 0
    · rw [if_pos hzero, hzero]
      refine iff_of_true (completes_ok _) fun mid h => ?_
      rw [bsearch, if_neg (Nat.lt_irrefl 0)] at h
      cases h
    · rw [if_neg hzero]
      cases hsearch : bsearch (probeColumn data target) 0 (numColsOf data) with
      | error fault =>
          obtain ⟨e, rfl⟩ := completes_search _ _ _ _ fault hsearch
          exact iff_of_true (completes_fail e) fun mid h => by cases h
      | ok res =>
          obtain ⟨mid, hit⟩ := res
          rw [ok_bind]
          cases hit with
          | false => exact iff_of_true (completes_ok _) fun mid' h => by cases h
          | true =>
              constructor
              · intro h mid' heq
                obtain rfl : mid = mid' := congrArg Prod.fst (Except.ok.inj heq)
                exact h
              · exact fun h => h mid rfl
  · refine iff_of_true ?_ fun h => absurd h h10
    exact .ensure fun h8 => .ensure fun h => absurd h h10

/-- **`extract_column` completes** when the column it finds begins in the data. -/
theorem completes_extractColumn_iff : Completes (extractColumn data target) ↔
    (10 ≤ data.length → ∀ mid,
      bsearch (probeColumn data target) 0 (numColsOf data) = .ok (mid, true) →
        valueStart data mid ≤ data.length) := by
  refine (completes_lookup_iff (fun numCols mid => do
    let dataOffset ← entryOffset data mid
    let val ← decodeValueAt data (dirStart + numCols * 4 + dataOffset)
    pure (some val)) none).trans (forall₃_congr fun _ mid hfound => ?_)
  rw [entryOffset_ok (entry_of_found hfound), ok_bind]
  constructor
  · exact fun h => completes_decodeValueAt_iff.mp h.of_bind
  · exact fun h => (completes_decodeValueAt_iff.mpr h).bind fun _ _ => completes_ok _

/-- The end of a value, as `extract_column_raw` and `patch_row` find it. -/
def nextOffset (data : List UInt8) (numCols mid : ℕ) : Result ℕ :=
  if mid + 1 < numCols then do
    let next ← entryOffset data (mid + 1)
    pure (dirStart + numCols * 4 + next)
  else pure data.length

theorem nextOffset_bind {α : Type} (next : ℕ → Result α) :
    nextOffset data n mid >>= next =
      if mid + 1 < n then entryOffset data (mid + 1) >>= fun off => next (dirStart + n * 4 + off)
      else next data.length := by
  unfold nextOffset
  split
  · cases entryOffset data (mid + 1) <;> rfl
  · rfl

theorem nextOffset_ok (hdir : colDataStart data ≤ data.length) :
    nextOffset data (numColsOf data) mid = .ok (valueEnd data mid) := by
  unfold nextOffset valueEnd
  split
  · rw [colDataStart] at hdir
    rw [entryOffset_ok (by omega)]
    rfl
  · rfl

/-- The next entry can be behind the end of the data. -/
theorem completes_nextOffset (h : Completes (nextOffset data (numColsOf data) mid)) :
    nextOffset data (numColsOf data) mid = .ok (valueEnd data mid) := by
  unfold nextOffset at h
  unfold nextOffset valueEnd
  split
  · rename_i hlt
    rw [if_pos hlt] at h
    by_cases hin : dirStart + (mid + 1) * 4 + 4 ≤ data.length
    · rw [entryOffset_ok hin]
      rfl
    · rw [entryOffset_panics hin] at h
      exact absurd h not_completes_panic
  · rfl

/-- **`extract_column_raw` completes** when the column it finds is a slice of the data. -/
theorem completes_extractColumnRaw_iff : Completes (extractColumnRaw data target) ↔
    (10 ≤ data.length → ∀ mid,
      bsearch (probeColumn data target) 0 (numColsOf data) = .ok (mid, true) →
        ValueInside data mid) := by
  unfold extractColumnRaw
  refine (completes_lookup_iff (fun numCols mid => do
    let dataOffset ← entryOffset data mid
    let nextOffset ←
      if mid + 1 < numCols then do
        let next ← entryOffset data (mid + 1)
        pure (dirStart + numCols * 4 + next)
      else pure data.length
    let raw ← bytesOf data (dirStart + numCols * 4 + dataOffset) nextOffset
    pure (some raw)) none).trans (forall₃_congr fun _ mid hfound => ?_)
  rw [entryOffset_ok (entry_of_found hfound), ok_bind]
  refine Iff.trans (Eq.to_iff (congrArg Completes (nextOffset_bind (fun stop => do
    let raw ← bytesOf data (dirStart + numColsOf data * 4 + offsetOf data mid) stop
    pure (some raw))).symm)) ?_
  constructor
  · intro h
    rw [completes_nextOffset h.of_bind, ok_bind] at h
    exact completes_bytesOf_iff.mp h.of_bind
  · intro hinside
    rw [nextOffset_ok hinside.directory, ok_bind]
    show Completes (bytesOf data (valueStart data mid) (valueEnd data mid) >>= _)
    rw [bytesOf_ok hinside.1 hinside.2, ok_bind]
    exact completes_ok _

/-! ## Patching a column -/

/-- What `patch_row` probes: an entry that it does not check. -/
def probeUnchecked (data : List UInt8) (target : UInt16) (mid : ℕ) : Result Ordering := do
  let colId ← entryColId data mid
  pure (compare colId target)

/-- The change of size that a patch of entry `mid` makes. -/
def sizeChange (data : List UInt8) (mid : ℕ) (newVal : Value) : ℤ :=
  ((encodeValue newVal).length : ℤ) - (valueEnd data mid - valueStart data mid : ℕ)

/-- The first offset that is shifted stays in the range of an `i32`. -/
def ShiftFits (data : List UInt8) (mid : ℕ) (newVal : Value) : Prop :=
  mid + 1 < numColsOf data →
    (offsetOf data (mid + 1) : ℤ) + (sizeChange data mid newVal).bmod (2 ^ 32) < 2 ^ 31

/-- A search that fails has probed an entry behind the end. -/
theorem search_unchecked {lo hi : ℕ}
    (h : Completes (bsearch (probeUnchecked data target) lo hi)) :
    ∃ res, bsearch (probeUnchecked data target) lo hi = .ok res := by
  cases hsearch : bsearch (probeUnchecked data target) lo hi with
  | ok res => exact ⟨res, rfl⟩
  | error fault =>
      obtain ⟨i, -, -, hprobe⟩ := bsearch_error hsearch
      obtain ⟨e, rfl⟩ := h fault hsearch
      by_cases hin : dirStart + i * 4 + 2 ≤ data.length
      · rw [probeUnchecked, entryColId_completes hin] at hprobe
        cases hprobe
      · rw [probeUnchecked, entryColId, readU16, bytesOf, if_neg (by omega)] at hprobe
        cases hprobe

section

variable {result : List UInt8} {sizeDiff : ℤ}

/-- One entry of a row that is long enough. -/
theorem shiftEntry_eq (hin : dirStart + i * 4 + 4 ≤ result.length) :
    shiftEntry sizeDiff result i =
      if (offsetOf result i : ℤ) + sizeDiff.bmod (2 ^ 32) ≥ 2 ^ 31 then overflowed
      else if (offsetOf result i : ℤ) + sizeDiff.bmod (2 ^ 32) < 0 ∨
          (offsetOf result i : ℤ) + sizeDiff.bmod (2 ^ 32) > 65535 then
        fail (.corruption "row offset overflow during patch")
      else .ok (blit result (dirStart + i * 4 + 2)
        (leBytes 2 ((offsetOf result i : ℤ) + sizeDiff.bmod (2 ^ 32)).toNat)) := by
  rw [shiftEntry, entryOffset_ok hin]
  rfl

/-- A change that leaves one offset in 16 bits lets every offset in 32. -/
theorem completes_shiftEntries {is : List ℕ} (hin : ∀ i ∈ is, dirStart + i * 4 + 4 ≤ result.length)
    (hsmall : sizeDiff.bmod (2 ^ 32) ≤ 65535) :
    Completes (is.foldlM (shiftEntry sizeDiff) result) := by
  induction is generalizing result with
  | nil => exact completes_ok _
  | cons i is ih =>
      obtain ⟨hi, hin⟩ := List.forall_mem_cons.mp hin
      have hoff := offsetOf_lt result i
      rw [List.foldlM_cons, shiftEntry_eq hi, if_neg (by omega)]
      split
      · exact completes_fail _
      · rw [ok_bind]
        exact ih (by simpa using hin)

/-- **The offsets behind a patch** are shifted or refused when the first one is. -/
theorem completes_shift_iff {count : ℕ} (hin : dirStart + (mid + 1 + count) * 4 ≤ result.length) :
    Completes ((List.range' (mid + 1) count).foldlM (shiftEntry sizeDiff) result) ↔
      (0 < count → (offsetOf result (mid + 1) : ℤ) + sizeDiff.bmod (2 ^ 32) < 2 ^ 31) := by
  cases count with
  | zero => exact iff_of_true (completes_ok _) nofun
  | succ count =>
      have hfirst : dirStart + (mid + 1) * 4 + 4 ≤ result.length := by omega
      simp only [Nat.succ_pos, true_implies]
      rw [List.range'_succ, List.foldlM_cons, shiftEntry_eq hfirst]
      by_cases hbig : (offsetOf result (mid + 1) : ℤ) + sizeDiff.bmod (2 ^ 32) ≥ 2 ^ 31
      · rw [if_pos hbig]
        exact iff_of_false not_completes_overflowed (not_lt.mpr hbig)
      · rw [if_neg hbig]
        refine iff_of_true ?_ (not_le.mp hbig)
        split
        · exact completes_fail _
        · rename_i hrange
          rw [ok_bind]
          refine completes_shiftEntries (fun i hi => ?_) (by omega)
          have := List.mem_range'.mp hi
          rw [length_blit]
          omega

end

/-- The patch of entry `mid`. -/
def patchFound (data : List UInt8) (numCols mid : ℕ) (newVal : Value) : Result (List UInt8) := do
  let oldDataOffset ← entryOffset data mid
  let oldAbsEnd ← nextOffset data numCols mid
  if oldAbsEnd < dirStart + numCols * 4 + oldDataOffset then overflowed
  else if ((encodeValue newVal).length : ℤ) -
      (oldAbsEnd - (dirStart + numCols * 4 + oldDataOffset) : ℕ) = 0 then do
    let _ ← bytesOf data (dirStart + numCols * 4 + oldDataOffset) oldAbsEnd
    pure (blit data (dirStart + numCols * 4 + oldDataOffset) (encodeValue newVal))
  else do
    let before ← bytesOf data 0 (dirStart + numCols * 4 + oldDataOffset)
    let after ← bytesOf data oldAbsEnd data.length
    (List.range' (mid + 1) (numCols - (mid + 1))).foldlM
      (shiftEntry (((encodeValue newVal).length : ℤ) -
        (oldAbsEnd - (dirStart + numCols * 4 + oldDataOffset) : ℕ)))
      (before ++ encodeValue newVal ++ after)

/-- A patch searches the directory and patches what it found. -/
theorem patchRow_eq (h10 : 10 ≤ data.length) (target : UInt16) (newVal : Value) :
    patchRow data target newVal =
      bsearch (probeUnchecked data target) 0 (numColsOf data) >>= fun res =>
        if res.2 then patchFound data (numColsOf data) res.1 newVal else .ok data := by
  unfold patchRow
  rw [ensureBytes_ok (by omega), ok_bind, readU16_ok (by omega), ok_bind,
    show readLe data 8 2 = numColsOf data from rfl]
  by_cases hzero : numColsOf data = 0
  · rw [if_pos hzero, hzero, bsearch, if_neg (Nat.lt_irrefl 0)]
    rfl
  · rw [if_neg hzero]
    refine bind_congr fun res => ?_
    obtain ⟨mid, found⟩ := res
    cases found with
    | false => rfl
    | true =>
        show _ = patchFound data (numColsOf data) mid newVal
        unfold patchFound
        refine bind_congr fun off => ?_
        rw [nextOffset_bind]
        rfl

/-- The row with the bytes of a value replaced and the directory as it was. -/
def splice (data : List UInt8) (mid : ℕ) (newVal : Value) : List UInt8 :=
  data.take (valueStart data mid) ++ encodeValue newVal ++ data.drop (valueEnd data mid)

/-- The patch of a value that is a slice of the data. -/
theorem patchFound_inside (hmid : mid < numColsOf data) (h : ValueInside data mid) :
    patchFound data (numColsOf data) mid newVal =
      if sizeChange data mid newVal = 0 then
        .ok (blit data (valueStart data mid) (encodeValue newVal))
      else (List.range' (mid + 1) (numColsOf data - (mid + 1))).foldlM
        (shiftEntry (sizeChange data mid newVal)) (splice data mid newVal) := by
  have hdir := h.directory
  have hentry : dirStart + mid * 4 + 4 ≤ data.length := by
    rw [colDataStart] at hdir
    omega
  have hstart : dirStart + numColsOf data * 4 + offsetOf data mid = valueStart data mid := rfl
  unfold patchFound
  rw [entryOffset_ok hentry, ok_bind, nextOffset_ok hdir, ok_bind, hstart,
    if_neg (Nat.not_lt.mpr h.1)]
  refine if_congr Iff.rfl ?_ ?_
  · rw [bytesOf_ok h.1 h.2]
    rfl
  · rw [bytesOf_ok (Nat.zero_le _) (h.1.trans h.2), ok_bind, bytesOf_ok h.2 le_rfl, ok_bind,
      slice_to_end]
    rfl

/-- A patch that completes is of a slice of the data. -/
theorem inside_of_patchFound (h : Completes (patchFound data (numColsOf data) mid newVal)) :
    ValueInside data mid := by
  have hentry : dirStart + mid * 4 + 4 ≤ data.length := by
    by_contra hout
    rw [patchFound, entryOffset_panics hout] at h
    exact not_completes_panic h
  have hstart : dirStart + numColsOf data * 4 + offsetOf data mid = valueStart data mid := rfl
  rw [patchFound, entryOffset_ok hentry, ok_bind] at h
  rw [completes_nextOffset h.of_bind, ok_bind, hstart] at h
  by_cases hle : valueStart data mid ≤ valueEnd data mid
  · rw [if_neg (Nat.not_lt.mpr hle)] at h
    split at h
    · exact completes_bytesOf_iff.mp h.of_bind
    · by_cases hbefore : valueStart data mid ≤ data.length
      · rw [bytesOf_ok (Nat.zero_le _) hbefore, ok_bind] at h
        exact ⟨hle, (completes_bytesOf_iff.mp h.of_bind).1⟩
      · rw [bytesOf, if_neg (by omega)] at h
        exact absurd h not_completes_panic
  · rw [if_pos (Nat.not_le.mp hle)] at h
    exact absurd h not_completes_overflowed

/-- The directory of the spliced row is the one of the data. -/
theorem offsetOf_splice (h : ValueInside data mid) (hi : i < numColsOf data) :
    offsetOf (splice data mid newVal) i = offsetOf data i := by
  have hstart : colDataStart data ≤ valueStart data mid := Nat.le_add_right _ _
  have hle := h.1.trans h.2
  rw [colDataStart] at hstart
  have htake : ∀ rest, slice (data.take (valueStart data mid) ++ rest) (dirStart + i * 4 + 2)
      (dirStart + i * 4 + 2 + 2) = slice data (dirStart + i * 4 + 2) (dirStart + i * 4 + 2 + 2) := by
    intro rest
    have hlen : (data.take (valueStart data mid)).length = valueStart data mid :=
      List.length_take_of_le hle
    conv_rhs => rw [← List.take_append_drop (valueStart data mid) data]
    rw [slice_append_left _ (by omega), slice_append_left _ (by omega)]
  rw [offsetOf, offsetOf, readLe, readLe, splice, List.append_assoc, htake]

theorem length_splice (h : ValueInside data mid) :
    colDataStart data ≤ (splice data mid newVal).length := by
  have hstart : colDataStart data ≤ valueStart data mid := Nat.le_add_right _ _
  have hle := h.1.trans h.2
  rw [splice, List.length_append, List.length_append, List.length_take_of_le hle]
  omega

/-- **`patch_row` completes** when its search stays in the data, and the column it finds is a
slice of the data whose patch shifts the next offset within the range of an `i32`. -/
theorem completes_patchRow_iff : Completes (patchRow data target newVal) ↔
    (10 ≤ data.length →
      (∃ res, bsearch (probeUnchecked data target) 0 (numColsOf data) = .ok res) ∧
      ∀ mid, bsearch (probeUnchecked data target) 0 (numColsOf data) = .ok (mid, true) →
        ValueInside data mid ∧ ShiftFits data mid newVal) := by
  by_cases h10 : 10 ≤ data.length
  · rw [patchRow_eq h10]
    simp only [h10, true_implies]
    have hpatch : ∀ mid < numColsOf data,
        Completes (patchFound data (numColsOf data) mid newVal) ↔
          ValueInside data mid ∧ ShiftFits data mid newVal := by
      intro mid hmid
      have hinside : ValueInside data mid →
          (Completes (patchFound data (numColsOf data) mid newVal) ↔ ShiftFits data mid newVal) := by
        intro h
        have hlen := @length_splice data newVal mid h
        rw [colDataStart] at hlen
        rw [patchFound_inside hmid h, ShiftFits]
        by_cases hsame : sizeChange data mid newVal = 0
        · rw [if_pos hsame, hsame]
          have hoff := offsetOf_lt data (mid + 1)
          refine iff_of_true (completes_ok _) fun _ => ?_
          simp only [Int.zero_bmod]
          omega
        · rw [if_neg hsame, completes_shift_iff (by omega)]
          refine ⟨fun hfits hlt => ?_, fun hfits hlt => ?_⟩
          · rw [← offsetOf_splice h hlt]
            exact hfits (by omega)
          · rw [offsetOf_splice h (by omega)]
            exact hfits (by omega)
      exact ⟨fun h => ⟨inside_of_patchFound h, (hinside (inside_of_patchFound h)).mp h⟩,
        fun h => (hinside h.1).mpr h.2⟩
    constructor
    · intro h
      obtain ⟨res, hres⟩ := search_unchecked h.of_bind
      refine ⟨⟨res, hres⟩, fun mid hfound => ?_⟩
      rw [hfound] at h
      exact (hpatch mid ((bsearch_bounds (Nat.zero_le _) hfound).2.2 rfl)).mp h
    · rintro ⟨⟨⟨mid, found⟩, hres⟩, hfound⟩
      rw [hres, ok_bind]
      cases found with
      | false => exact completes_ok _
      | true =>
          exact (hpatch mid ((bsearch_bounds (Nat.zero_le _) hres).2.2 rfl)).mpr (hfound mid hres)
  · refine iff_of_true ?_ fun h => absurd h h10
    exact .ensure fun h => absurd h h10

/-! ## All decoders -/

/-- What the bytes of a row must satisfy so that no decoder slices behind the end, subtracts
below zero or leaves the range of an `i32`. -/
structure DecodersFit (data : List UInt8) (target : UInt16) (newVal : Value) : Prop where
  /-- `decode_row` reaches no column that begins behind the end. -/
  decode : colDataStart data ≤ data.length → ∀ i < numColsOf data,
    (∀ j < i, ∃ v, decodeValueAt data (valueStart data j) = .ok v) → valueStart data i ≤ data.length
  /-- The search of `patch_row` probes entries in the data. -/
  search : ∃ res, bsearch (probeUnchecked data target) 0 (numColsOf data) = .ok res
  /-- The column it finds is a slice of the data, and its patch shifts the next offset
  within an `i32`. -/
  found : ∀ mid, bsearch (probeUnchecked data target) 0 (numColsOf data) = .ok (mid, true) →
    ValueInside data mid ∧ ShiftFits data mid newVal

/-- An entry that the checked search finds is found by the unchecked one. -/
theorem found_unchecked {res : ℕ × Bool}
    (h : bsearch (probeColumn data target) 0 (numColsOf data) = .ok res) :
    bsearch (probeUnchecked data target) 0 (numColsOf data) = .ok res := by
  refine bsearch_mono (fun i ord hprobe => ?_) h
  obtain ⟨u, -, hrest⟩ := bind_eq_ok.mp hprobe
  exact hrest

/-- **The decoders return or fail** on the bytes that fit them, and on no others. -/
theorem decoders_complete_iff (data : List UInt8) (target : UInt16) (newVal : Value) :
    (Completes (decodeRow data) ∧ Completes (extractId data) ∧
      Completes (extractColumn data target) ∧ Completes (extractColumnRaw data target) ∧
      Completes (patchRow data target newVal)) ↔
    (10 ≤ data.length → DecodersFit data target newVal) := by
  rw [completes_decodeRow_iff, completes_extractColumn_iff, completes_extractColumnRaw_iff,
    completes_patchRow_iff]
  constructor
  · rintro ⟨hdecode, _, _, _, hpatch⟩ h10
    exact ⟨hdecode h10, (hpatch h10).1, (hpatch h10).2⟩
  · intro h
    have hinside : 10 ≤ data.length → ∀ mid,
        bsearch (probeColumn data target) 0 (numColsOf data) = .ok (mid, true) →
          ValueInside data mid :=
      fun h10 mid hmid => ((h h10).found mid (found_unchecked hmid)).1
    refine ⟨fun h10 => (h h10).decode, completes_extractId data, fun h10 mid hmid => ?_, hinside,
      fun h10 => ⟨(h h10).search, (h h10).found⟩⟩
    have hvalue := hinside h10 mid hmid
    exact hvalue.1.trans hvalue.2

/-- A row with one column whose offset is behind the end. -/
def lostColumn : List UInt8 := [7, 0, 0, 0, 0, 0, 0, 0, 1, 0, 0, 0, 100, 0]

/-- Its decoding panics. -/
theorem lostColumn_not_decoded :
    ¬ (Completes (decodeRow lostColumn) ∧ Completes (extractId lostColumn) ∧
      Completes (extractColumn lostColumn 0) ∧ Completes (extractColumnRaw lostColumn 0) ∧
      Completes (patchRow lostColumn 0 .null)) := by
  intro h
  have hpanic : decodeRow lostColumn = panic := by decide +kernel
  rw [hpanic] at h
  exact not_completes_panic h.1

end BoogyDb
