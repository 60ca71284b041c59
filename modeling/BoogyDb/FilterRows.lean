import BoogyDb.Filter
import BoogyDb.RowRoundTrip

/-!
# Filters on stored rows

A filter that is evaluated on the raw bytes of a column says of an encoded value what
it says of the value (`evalFilterRawFull_encodeValue`).  A row `Reads` a column as `v`
when its bytes and its decoding are those of `v`, or when neither finds the column; an
encoded row reads a column whose offsets fit (`reads_encodeRow`).  Then every way to
evaluate a filter agrees with `Filter.matches`.
-/

namespace BoogyDb

open Bytes BinarySearch

/-! ## Raw values -/

section

variable {v : Value} {op : FilterOp} {expected : Value} {r : Bool}

theorem encodeValue_eq_cons (v : Value) : ∃ tag tail, encodeValue v = tag :: tail := by
  cases v <;> exact ⟨_, _, rfl⟩

/-- The tag tells whether a value is `Null`. -/
theorem tag_eq_null_iff {tag : UInt8} {tail : List UInt8} (h : encodeValue v = tag :: tail) :
    (tag == tagNull) = v.isNull := by
  cases v <;> cases h <;> rfl

/-- The bytes of a text that its length field covers: `len() as u32` keeps the
remainder of a length that does not fit. -/
def coveredBytes (s : String) : List UInt8 := (asBytes s).take ((asBytes s).length % 2 ^ 32)

theorem coveredBytes_of_lt {s : String} (hsize : (asBytes s).length < 2 ^ 32) :
    coveredBytes s = asBytes s := by
  rw [coveredBytes, Nat.mod_eq_of_lt hsize, List.take_length]

theorem length_coveredBytes (s : String) :
    (coveredBytes s).length = (asBytes s).length % 2 ^ 32 := by
  have hle := Nat.mod_le (asBytes s).length (2 ^ 32)
  rw [coveredBytes, List.length_take, Nat.min_eq_left hle]

/-- The length field of a text. -/
theorem readLe_text (s : String) :
    readLe (encodeValue (.text s)) 1 4 = (coveredBytes s).length := by
  have henc : encodeValue (.text s) = [tagText] ++ (leBytes 4 (asBytes s).length ++ asBytes s) := rfl
  have hread : readLe (encodeValue (.text s)) 1 4 = (asBytes s).length % 256 ^ 4 :=
    readLe_append henc rfl
  rw [hread, length_coveredBytes, show 256 ^ 4 = 2 ^ 32 from rfl]

theorem length_encodeText (s : String) :
    (encodeValue (.text s)).length = 5 + (asBytes s).length := by
  rw [encodeValue, List.length_cons, List.length_append, length_leBytes]
  omega

theorem length_coveredBytes_le (s : String) :
    5 + (coveredBytes s).length ≤ (encodeValue (.text s)).length := by
  have hle := Nat.mod_le (asBytes s).length (2 ^ 32)
  rw [length_coveredBytes, length_encodeText]
  omega

theorem slice_text (s : String) :
    slice (encodeValue (.text s)) 5 (5 + (coveredBytes s).length) = coveredBytes s := by
  have henc : encodeValue (.text s) =
      (tagText :: leBytes 4 (asBytes s).length) ++ (coveredBytes s ++
        (asBytes s).drop ((asBytes s).length % 2 ^ 32)) := by
    rw [coveredBytes, List.take_append_drop]
    rfl
  exact slice_eq_of_append henc (by simp) (by simp)

theorem readLe_integer (i : Int64) :
    (UInt64.ofNat (readLe (encodeValue (.integer i)) 1 8)).toInt64 = i := by
  have henc : encodeValue (.integer i) = [tagInteger] ++ (leBytes 8 i.toUInt64.toNat ++ []) := by
    rw [List.append_nil]
    rfl
  have hread : readLe (encodeValue (.integer i)) 1 8 = i.toUInt64.toNat :=
    readLe_eq_of_append henc rfl i.toUInt64.toNat_lt
  rw [hread, UInt64.ofNat_toNat]
  rfl

/-- Two texts are equal values when their bytes are equal. -/
theorem compare_text (s s' : String) :
    ((Value.text s).compare (.text s') == some .eq) = (asBytes s == asBytes s') := by
  rw [Value.compare, Bool.eq_iff_iff, beq_iff_eq, beq_iff_eq, Option.some_inj]
  exact Std.compare_eq_iff_eq

theorem compare_integer (i j : Int64) :
    ((Value.integer i).compare (.integer j) == some .eq) = (i == j) := by
  rw [Value.compare, Bool.eq_iff_iff, beq_iff_eq, beq_iff_eq, Option.some_inj,
    Std.compare_eq_iff_eq, Int64.toInt_inj]

/-- Two texts are compared by what the length field covers. -/
theorem evalFilterRaw_text_eq (s s' : String) :
    evalFilterRaw (encodeValue (.text s)) .eq (.text s') =
      some (coveredBytes s == asBytes s') := by
  have hle := length_coveredBytes_le s
  have hraw : evalFilterRaw (encodeValue (.text s)) .eq (.text s') =
      if (encodeValue (.text s)).length < 5 then none
      else if readLe (encodeValue (.text s)) 1 4 ≠ (asBytes s').length then some false
      else if (encodeValue (.text s)).length < 5 + readLe (encodeValue (.text s)) 1 4 then none
      else some (slice (encodeValue (.text s)) 5 (5 + readLe (encodeValue (.text s)) 1 4) ==
        asBytes s') := rfl
  rw [hraw, if_neg (by omega), readLe_text]
  by_cases hlen : (coveredBytes s).length = (asBytes s').length
  · rw [if_neg (not_not.mpr hlen), if_neg (by omega), slice_text]
  · rw [if_pos hlen]
    have hne : coveredBytes s ≠ asBytes s' := fun heq => hlen (congrArg List.length heq)
    rw [beq_eq_false_iff_ne.mpr hne]

/-- Only equality of two texts is decided on raw bytes. -/
theorem evalFilterRaw_text_none {s : String} (hop : op ≠ .isNull) (hop' : op ≠ .isNotNull)
    (h : op = .eq → ∀ s', expected ≠ .text s') :
    evalFilterRaw (encodeValue (.text s)) op expected = none := by
  cases op with
  | isNull => exact absurd rfl hop
  | isNotNull => exact absurd rfl hop'
  | isIn => rfl
  | ne | lt | le | gt | ge => cases expected <;> rfl
  | eq =>
      cases expected with
      | text s' => exact absurd rfl (h rfl s')
      | null | integer _ | real _ | blob _ | boolean _ => rfl

theorem evalFilterRaw_text {s : String} (hsize : (asBytes s).length < 2 ^ 32)
    (hop : op ≠ .isNull) (hop' : op ≠ .isNotNull)
    (h : evalFilterRaw (encodeValue (.text s)) op expected = some r) :
    r = evalFilterOp (.text s) op expected := by
  by_cases hcmp : op = .eq → ∀ s', expected ≠ .text s'
  · rw [evalFilterRaw_text_none hop hop' hcmp] at h
    cases h
  push Not at hcmp
  obtain ⟨rfl, s', rfl⟩ := hcmp
  rw [evalFilterRaw_text_eq, coveredBytes_of_lt hsize, Option.some_inj] at h
  show r = ((Value.text s).compare (.text s') == some .eq)
  rw [compare_text, h]

/-- An integer is compared with integers only. -/
theorem evalFilterRaw_integer {i : Int64} (hop : op ≠ .isNull) (hop' : op ≠ .isNotNull)
    (h : evalFilterRaw (encodeValue (.integer i)) op expected = some r) :
    r = evalFilterOp (.integer i) op expected := by
  by_cases hin : op = .isIn
  · subst hin
    cases h
  cases expected with
  | null | text _ | real _ | blob _ | boolean _ => cases op <;> contradiction
  | integer j =>
      have hraw : evalFilterRaw (encodeValue (.integer i)) op (.integer j) =
          if (encodeValue (.integer i)).length < 9 then none
          else some (op.holds (Ord.compare
            (UInt64.ofNat (readLe (encodeValue (.integer i)) 1 8)).toInt64.toInt j.toInt)) := by
        cases op <;> first | contradiction | rfl
      have hval : evalFilterOp (.integer i) op (.integer j) =
          op.holds (Ord.compare i.toInt j.toInt) := by
        cases op <;> first | contradiction | rfl
      rw [hraw, if_neg (by simp [encodeValue]), readLe_integer, Option.some_inj] at h
      rw [hval, h]

/-- **A comparison of raw bytes** that gives an answer gives the one of the value. -/
theorem evalFilterRaw_encodeValue (hsize : ∀ s, v = .text s → (asBytes s).length < 2 ^ 32)
    (h : evalFilterRaw (encodeValue v) op expected = some r) : r = evalFilterOp v op expected := by
  obtain ⟨tag, tail, henc⟩ := encodeValue_eq_cons v
  have hnull := tag_eq_null_iff henc
  by_cases hop : op = .isNull
  · rw [hop, henc, evalFilterRaw, Option.some_inj] at h
    rw [hop, ← h, hnull]
    rfl
  by_cases hop' : op = .isNotNull
  · rw [hop', henc, evalFilterRaw, Option.some_inj] at h
    rw [hop', ← h, bne, hnull]
    rfl
  cases v with
  | text s => exact evalFilterRaw_text (hsize s rfl) hop hop' h
  | integer i => exact evalFilterRaw_integer hop hop' h
  | null | real _ | blob _ | boolean _ =>
      -- the other types are never compared raw
      cases op with
      | isNull => exact absurd rfl hop
      | isNotNull => exact absurd rfl hop'
      | isIn => cases h
      | eq | ne | lt | le | gt | ge => cases h

/-- The loop over the candidates of an `In`, when it does not give up. -/
theorem evalCandidates_any {same : Value → Option Bool} {values : List Value}
    (hsame : ∀ x b, same x = some b → (v.compare x == some .eq) = b)
    (h : evalCandidates same values = some r) :
    r = values.any fun x => v.compare x == some .eq := by
  induction values with
  | nil =>
      cases h
      rfl
  | cons x values ih =>
      rw [evalCandidates] at h
      cases hx : same x with
      | none =>
          rw [hx] at h
          cases h
      | some b =>
          rw [hx] at h
          rw [List.any_cons, hsame x b hx]
          cases b with
          | true =>
              cases h
              rfl
          | false => exact ih h

/-- What `eval_filter_raw_in` makes of a candidate when the column holds a text. -/
def sameText (s : String) : Value → Option Bool
  | .text s' => some (coveredBytes s == asBytes s')
  | _ => none

/-- What it makes of a candidate when the column holds an integer. -/
def sameInteger (i : Int64) : Value → Option Bool
  | .integer j => some (i == j)
  | _ => none

theorem evalFilterRawIn_text (s : String) (values : List Value) :
    evalFilterRawIn (encodeValue (.text s)) values = evalCandidates (sameText s) values := by
  have hle := length_coveredBytes_le s
  cases values with
  | nil => rfl
  | cons x values =>
      have hraw : evalFilterRawIn (encodeValue (.text s)) (x :: values) =
          if (encodeValue (.text s)).length < 5 then none
          else if (encodeValue (.text s)).length < 5 + readLe (encodeValue (.text s)) 1 4 then none
          else evalCandidates (fun v => match v with
            | .text s' => some (readLe (encodeValue (.text s)) 1 4 == (asBytes s').length &&
                slice (encodeValue (.text s)) 5 (5 + readLe (encodeValue (.text s)) 1 4) ==
                  asBytes s')
            | _ => none) (x :: values) := rfl
      rw [hraw, if_neg (by omega), readLe_text, if_neg (by omega), slice_text]
      congr 1
      funext v
      cases v with
      | null | integer _ | real _ | blob _ | boolean _ => rfl
      | text s' =>
          -- equal bytes have equal lengths
          rw [sameText, Option.some_inj, Bool.eq_iff_iff, Bool.and_eq_true, beq_iff_eq, beq_iff_eq]
          exact ⟨fun heq => heq.2, fun heq => ⟨congrArg List.length heq, heq⟩⟩

theorem evalFilterRawIn_integer (i : Int64) (values : List Value) :
    evalFilterRawIn (encodeValue (.integer i)) values = evalCandidates (sameInteger i) values := by
  cases values with
  | nil => rfl
  | cons x values =>
      have hraw : evalFilterRawIn (encodeValue (.integer i)) (x :: values) =
          if (encodeValue (.integer i)).length < 9 then none
          else evalCandidates (sameInteger
            (UInt64.ofNat (readLe (encodeValue (.integer i)) 1 8)).toInt64) (x :: values) := rfl
      rw [hraw, if_neg (by simp [encodeValue]), readLe_integer]

theorem evalFilterRawIn_encodeValue {values : List Value}
    (hsize : ∀ s, v = .text s → (asBytes s).length < 2 ^ 32)
    (h : evalFilterRawIn (encodeValue v) values = some r) :
    r = values.any fun x => v.compare x == some .eq := by
  cases v with
  | text s =>
      rw [evalFilterRawIn_text] at h
      refine evalCandidates_any (fun x b hx => ?_) h
      cases x with
      | text s' => rw [compare_text, ← coveredBytes_of_lt (hsize s rfl)]; exact Option.some.inj hx
      | null | integer _ | real _ | blob _ | boolean _ => cases hx
  | integer i =>
      rw [evalFilterRawIn_integer] at h
      refine evalCandidates_any (fun x b hx => ?_) h
      cases x with
      | integer j => rw [compare_integer]; exact Option.some.inj hx
      | null | text _ | real _ | blob _ | boolean _ => cases hx
  | null | real _ | blob _ | boolean _ =>
      cases values with
      | nil =>
          cases h
          rfl
      | cons x values => cases h

theorem evalFilterRawFull_encodeValue {f : Filter}
    (hsize : ∀ s, v = .text s → (asBytes s).length < 2 ^ 32)
    (h : evalFilterRawFull (encodeValue v) f = some r) : r = f.matches v := by
  unfold evalFilterRawFull at h
  unfold Filter.matches
  split at h
  · rw [if_pos ‹_›]
    split at h
    · exact evalFilterRawIn_encodeValue hsize h
    · cases h
      rfl
  · rw [if_neg ‹_›]
    exact evalFilterRaw_encodeValue hsize h

end

/-! ## Rows -/

/-- The row has the value `v` in column `c`, or does not have the column. -/
structure Reads (row : List UInt8) (c : UInt16) (v : Option Value) : Prop where
  raw : extractColumnRaw row c = .ok (v.map encodeValue)
  value : extractColumn row c = .ok v
  size : ∀ x, v = some x → (encodeValue x).length < 2 ^ 32

theorem Reads.textSize {row : List UInt8} {c : UInt16} {x : Value} (h : Reads row c (some x)) :
    ∀ s, x = .text s → (asBytes s).length < 2 ^ 32 := by
  rintro s rfl
  have hsize := h.size _ rfl
  rw [length_encodeText] at hsize
  omega

def Readable (row : List UInt8) : Prop := ∀ c, ∃ v, Reads row c v

section

variable {row : List UInt8} {c : UInt16} {v : Option Value} {absent : Value}

theorem orAbsent_ok {α : Type} (x : Option α) : orAbsent (.ok x) = .ok x := rfl

/-- **Every way to evaluate a filter on a column agrees.** -/
theorem columnMatches_reads (h : Reads row c v) (absent : Value) (f : Filter) :
    columnMatches row c absent f = .ok (f.matches (v.getD absent)) := by
  unfold columnMatches
  rw [h.raw, orAbsent_ok, ok_bind]
  cases v with
  | none =>
      show (orAbsent (extractColumn row c) >>= _) = _
      rw [h.value]
      rfl
  | some x =>
      rw [Option.map_some, Option.bind_some]
      cases hraw : evalFilterRawFull (encodeValue x) f with
      | some result => rw [evalFilterRawFull_encodeValue h.textSize hraw]; rfl
      | none =>
          dsimp only
          rw [h.value]
          rfl

/-- A cell that is the row. -/
theorem cellMatches_reads (h : Reads row c v) (hinline : hasOverflow row = false)
    (read : ℕ → Result Page) (op : FilterOp) (value absent : Value) :
    cellMatches read row c op value absent = .ok (evalFilterOp (v.getD absent) op value) := by
  unfold cellMatches
  rw [h.raw, orAbsent_ok, ok_bind]
  cases v with
  | none =>
      show (if hasOverflow row then _ else _) = _
      rw [hinline]
      rfl
  | some x =>
      rw [Option.map_some]
      dsimp only
      cases hraw : evalFilterRaw (encodeValue x) op value with
      | some result => rw [evalFilterRaw_encodeValue h.textSize hraw]; rfl
      | none =>
          dsimp only
          rw [h.value]
          rfl

end

/-! ## Encoded rows -/

section

variable {rowid : UInt64} {columns : List Column}

/-- How the id in a directory entry compares with the one that is searched. -/
def entryOrder (columns : List Column) (c : UInt16) (i : ℕ) : Ordering :=
  compare (colIdAt (sortColumns columns) i) c

/-- The entries that the search for a column looks at. -/
def lookedAt (columns : List Column) (c : UInt16) : List ℕ :=
  visits (entryOrder columns c) 0 columns.length

/-- The entry that it finds. -/
def foundAt (columns : List Column) (c : UInt16) : Option ℕ :=
  hit (entryOrder columns c) 0 columns.length

/-- The value that is stored for a column. -/
def storedValue (columns : List Column) (c : UInt16) : Option Value :=
  (foundAt columns c).bind fun i => (sortColumns columns)[i]?.map Prod.snd

/-- Where the data of a column starts in the row; behind the last one, where the row ends. -/
def columnStart (columns : List Column) (i : ℕ) : ℕ :=
  dirStart + columns.length * 4 + dataOffset (sortColumns columns) i

/-- The offsets around the data of a column fit in 16 bits. -/
def SpanFits (columns : List Column) (i : ℕ) : Prop :=
  dataOffset (sortColumns columns) i < 65536 ∧
    (i + 1 < columns.length → dataOffset (sortColumns columns) (i + 1) < 65536)

theorem lt_of_foundAt {c : UInt16} {i : ℕ} (h : foundAt columns c = some i) :
    i < (sortColumns columns).length := by
  rw [length_sortColumns]
  exact lt_of_hit h

theorem storedValue_of_foundAt {c : UInt16} {i : ℕ} (hlt : i < (sortColumns columns).length)
    (h : foundAt columns c = some i) :
    storedValue columns c = some (sortColumns columns)[i].2 := by
  rw [storedValue, h, Option.bind_some, List.getElem?_eq_getElem hlt]
  rfl

theorem probeColumn_encodeRow (c : UInt16) {i : ℕ} (hi : i < columns.length) :
    probeColumn (encodeRow rowid columns) c i = .ok (entryOrder columns c i) := by
  have h : i < (sortColumns columns).length := by simpa using hi
  rw [probeColumn, ensureBytes_ok (by rw [length_encodeRow, dirStart]; omega), ok_bind,
    entryColId_encodeRow rowid columns h, ok_bind, entryOrder, colIdAt_eq h]
  rfl

/-- The data offset behind a column. -/
theorem dataOffset_succ {sorted : List Column} {i : ℕ} (h : i < sorted.length) :
    dataOffset sorted (i + 1) = dataOffset sorted i + (encodeValue sorted[i].2).length := by
  rw [dataOffset, dataOffset, List.take_succ_eq_append_getElem h, columnData_append,
    List.length_append]
  congr 1
  rw [columnData, List.flatMap_singleton]

/-- The bytes of a column in the encoded row. -/
theorem slice_encodeRow {i : ℕ} (h : i < (sortColumns columns).length) :
    slice (encodeRow rowid columns)
        (dirStart + columns.length * 4 + dataOffset (sortColumns columns) i)
        (dirStart + columns.length * 4 + dataOffset (sortColumns columns) (i + 1)) =
      encodeValue (sortColumns columns)[i].2 := by
  have hlen := length_directory 0 (sortColumns columns)
  have htake : columnData (sortColumns columns) =
      columnData ((sortColumns columns).take i) ++ (encodeValue (sortColumns columns)[i].2 ++
        columnData ((sortColumns columns).drop (i + 1))) := by
    rw [← columnData_drop_dataOffset h, dataOffset,
      ← List.take_append_drop i (sortColumns columns), columnData_append]
    simp
  have hrow : encodeRow rowid columns =
      (leBytes 8 rowid.toNat ++ leBytes 2 columns.length ++ directory 0 (sortColumns columns) ++
        columnData ((sortColumns columns).take i)) ++ (encodeValue (sortColumns columns)[i].2 ++
        columnData ((sortColumns columns).drop (i + 1))) := by
    rw [encodeRow_eq, htake]
    simp only [List.append_assoc]
  refine slice_eq_of_append hrow ?_ ?_
  · simp only [List.length_append, length_leBytes, hlen, length_sortColumns, dataOffset, dirStart]
  · simp only [List.length_append, length_leBytes, hlen, length_sortColumns, dirStart,
      dataOffset_succ h]
    rw [dataOffset]
    omega

theorem columnStart_succ {i : ℕ} (h : i < (sortColumns columns).length) :
    columnStart columns (i + 1) =
      columnStart columns i + (encodeValue (sortColumns columns)[i].2).length := by
  rw [columnStart, dataOffset_succ h, ← Nat.add_assoc]
  rfl

/-- The row ends behind its last column. -/
theorem columnStart_length (rowid : UInt64) (columns : List Column) :
    columnStart columns columns.length = (encodeRow rowid columns).length := by
  rw [columnStart, dataOffset, List.take_of_length_le (length_sortColumns columns).le,
    length_columnData_sortColumns, length_encodeRow, dirStart]

theorem columnStart_le (rowid : UInt64) (columns : List Column) (i : ℕ) :
    columnStart columns i ≤ (encodeRow rowid columns).length := by
  have hle := dataOffset_le (sortColumns columns) i
  rw [length_columnData_sortColumns] at hle
  rw [columnStart, length_encodeRow, dirStart]
  omega

/-- From its start on, the row is the value and then the rest. -/
theorem drop_columnStart {i : ℕ} (h : i < (sortColumns columns).length) :
    (encodeRow rowid columns).drop (columnStart columns i) =
      encodeValue (sortColumns columns)[i].2 ++
        (encodeRow rowid columns).drop (columnStart columns (i + 1)) := by
  have hsucc := columnStart_succ h
  have hslice : slice (encodeRow rowid columns) (columnStart columns i)
      (columnStart columns (i + 1)) = encodeValue (sortColumns columns)[i].2 := slice_encodeRow h
  rw [← slice_to_end, ← slice_append_slice (by omega) (columnStart_le rowid columns (i + 1)),
    hslice, slice_to_end]

/-! ### The readers of a row or of its front -/

section

variable {data : List UInt8} {c : UInt16} {n i offset next : ℕ}

theorem extractColumnRaw_hit (hlen : 10 ≤ data.length) (hcount : readU16 data 8 = .ok n)
    (hsearch : bsearch (probeColumn data c) 0 n = .ok (i, true)) (hpos : n ≠ 0)
    (hoff : entryOffset data i = .ok offset)
    (hnext : i + 1 < n → entryOffset data (i + 1) = .ok next) :
    extractColumnRaw data c = (bytesOf data (dirStart + n * 4 + offset)
      (if i + 1 < n then dirStart + n * 4 + next else data.length) >>= fun raw => .ok (some raw)) := by
  rw [extractColumnRaw, ensureBytes_ok (by omega), ok_bind, ensureBytes_ok (by omega), ok_bind,
    hcount, ok_bind, if_neg hpos, hsearch, ok_bind]
  dsimp only
  rw [if_pos rfl, hoff, ok_bind]
  by_cases hlast : i + 1 < n
  · rw [if_pos hlast, if_pos hlast, hnext hlast, ok_bind]
    rfl
  · rw [if_neg hlast, if_neg hlast]
    rfl

theorem extractColumn_hit (hlen : 10 ≤ data.length) (hcount : readU16 data 8 = .ok n)
    (hsearch : bsearch (probeColumn data c) 0 n = .ok (i, true)) (hpos : n ≠ 0)
    (hoff : entryOffset data i = .ok offset) :
    extractColumn data c =
      (decodeValueAt data (dirStart + n * 4 + offset) >>= fun v => .ok (some v)) := by
  rw [extractColumn, ensureBytes_ok (by omega), ok_bind, ensureBytes_ok (by omega), ok_bind,
    hcount, ok_bind, if_neg hpos, hsearch, ok_bind]
  dsimp only
  rw [if_pos rfl, hoff, ok_bind]
  rfl

theorem extractColumnRaw_miss (hlen : 10 ≤ data.length) (hcount : readU16 data 8 = .ok n)
    (hsearch : bsearch (probeColumn data c) 0 n = .ok (i, false)) :
    extractColumnRaw data c = .ok none := by
  rw [extractColumnRaw, ensureBytes_ok (by omega), ok_bind, ensureBytes_ok (by omega), ok_bind,
    hcount, ok_bind, hsearch, ok_bind]
  split <;> rfl

theorem extractColumn_miss (hlen : 10 ≤ data.length) (hcount : readU16 data 8 = .ok n)
    (hsearch : bsearch (probeColumn data c) 0 n = .ok (i, false)) :
    extractColumn data c = .ok none := by
  rw [extractColumn, ensureBytes_ok (by omega), ok_bind, ensureBytes_ok (by omega), ok_bind,
    hcount, ok_bind, hsearch, ok_bind]
  split <;> rfl

end

/-- **A row reads a column** whose offsets fit, or that is not there. -/
theorem reads_encodeRow {c : UInt16} (hfew : columns.length < 65536)
    (hsize : (encodeRow rowid columns).length < 2 ^ 32)
    (hfit : ∀ i, foundAt columns c = some i → SpanFits columns i) :
    Reads (encodeRow rowid columns) c (storedValue columns c) := by
  have hlen := length_encodeRow rowid columns
  have hcount : readU16 (encodeRow rowid columns) 8 = .ok columns.length := by
    rw [readNumCols_encodeRow, Nat.mod_eq_of_lt hfew]
  obtain ⟨⟨i, found⟩, hsearch, hhit⟩ := @bsearch_visits _
    (probeColumn (encodeRow rowid columns) c) (entryOrder columns c) 0 columns.length
    fun i hi => probeColumn_encodeRow c (lt_of_mem_visits hi).2
  change foundAt columns c = _ at hhit
  cases found with
  | false =>
      have hnone : storedValue columns c = none := by
        rw [storedValue, hhit]
        rfl
      rw [hnone]
      exact ⟨extractColumnRaw_miss (by omega) hcount hsearch,
        extractColumn_miss (by omega) hcount hsearch, nofun⟩
  | true =>
      have hfound : foundAt columns c = some i := hhit
      have hlt := lt_of_foundAt hfound
      have hlt' : i < columns.length := by simpa using hlt
      obtain ⟨hoffset, hnext⟩ := hfit i hfound
      have hsmall := (length_encodeValue_le rowid columns hlt).trans_lt hsize
      have hoff := entryOffset_encodeRow rowid columns hlt
      rw [Nat.mod_eq_of_lt hoffset] at hoff
      have hraw := extractColumnRaw_hit (c := c) (by omega) hcount hsearch (by omega) hoff
        fun hlast => by
          have hnext' := entryOffset_encodeRow rowid columns (i := i + 1) (by simpa using hlast)
          rwa [Nat.mod_eq_of_lt (hnext hlast)] at hnext'
      have hstop : (if i + 1 < columns.length then
          dirStart + columns.length * 4 + dataOffset (sortColumns columns) (i + 1)
          else (encodeRow rowid columns).length) = columnStart columns (i + 1) := by
        by_cases hlast : i + 1 < columns.length
        · exact if_pos hlast
        · rw [if_neg hlast, ← columnStart_length]
          congr 1
          omega
      have hstart : dirStart + columns.length * 4 + dataOffset (sortColumns columns) i =
          columnStart columns i := rfl
      have hsucc := columnStart_succ hlt
      rw [storedValue_of_foundAt hlt hfound]
      refine ⟨?_, ?_, fun x hx => ?_⟩
      · rw [hraw, hstop, hstart, bytesOf_ok (by omega) (columnStart_le rowid columns (i + 1)), ok_bind]
        exact congrArg (fun raw => Except.ok (some raw)) (slice_encodeRow hlt)
      · rw [extractColumn_hit (by omega) hcount hsearch (by omega) hoff, hstart, decodeValueAt,
          bytesOf_ok (columnStart_le rowid columns i) le_rfl, ok_bind, slice_to_end,
          drop_columnStart hlt, decodeValue_encodeValue _ _ hsmall]
        rfl
      · rwa [← Option.some.inj hx]

end

end BoogyDb
