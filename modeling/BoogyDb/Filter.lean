import BoogyDb.Lib.Float64
import BoogyDb.Overflow
import BoogyDb.Schema

/-!
# Filters

A filter compares a column with a value.  It is evaluated in three ways: against
a decoded value (`Filter.matches`, `evalFilterOp`), against the raw bytes of a
column where that is possible (`evalFilterRaw`, `evalFilterRawIn`,
`evalFilterRawFull`), and against a whole row (`filterMatchesRow`, `rowPasses`).
-/

namespace BoogyDb

open Bytes

/-! ## Comparing values -/

/-- The order of two values; `none` when their types are incompatible.  NaN comes
last. -/
def Value.compare : Value → Value → Option Ordering
  | .null, .null => some .eq
  | .null, _ => some .lt
  | _, .null => some .gt
  | .integer a, .integer b => some (Ord.compare a.toInt b.toInt)
  | .real a, .real b =>
      if Float64.isNaN a then if Float64.isNaN b then some .eq else some .gt
      else if Float64.isNaN b then some .lt
      else Float64.partialCmp a b
  | .text a, .text b => some (Ord.compare (asBytes a) (asBytes b))
  | .boolean a, .boolean b => some (Ord.compare a b)
  | .blob a, .blob b => some (Ord.compare a b)
  | .integer a, .real b =>
      if Float64.isNaN b then some .lt else Float64.partialCmp (Float64.ofInt64 a) b
  | .real a, .integer b =>
      if Float64.isNaN a then some .gt else Float64.partialCmp a (Float64.ofInt64 b)
  | _, _ => none

inductive FilterOp
  | eq
  | ne
  | lt
  | le
  | gt
  | ge
  | isIn
  | isNull
  | isNotNull
deriving DecidableEq

/-- What a comparison operator asks of an order; the other operators ask nothing of it. -/
def FilterOp.holds : FilterOp → Ordering → Bool
  | .eq, ord => ord == .eq
  | .ne, ord => ord != .eq
  | .lt, ord => ord == .lt
  | .le, ord => ord != .gt
  | .gt, ord => ord == .gt
  | .ge, ord => ord != .lt
  | _, _ => false

structure Filter where
  column : String
  op : FilterOp
  value : Value
  /-- The values of an `In`. -/
  inValues : Option (List Value)
deriving DecidableEq

/-- Evaluate an operator that is not `In`. -/
def evalFilterOp (actual : Value) (op : FilterOp) (expected : Value) : Bool :=
  match op with
  | .isIn => false
  | .isNull => actual.isNull
  | .isNotNull => !actual.isNull
  | op =>
    match actual.compare expected with
    | some ord => op.holds ord
    | none => false

/-- Evaluate the filter against a value. -/
def Filter.matches (f : Filter) (actual : Value) : Bool :=
  if f.op = .isIn then
    match f.inValues with
    | some values => values.any fun v => actual.compare v == some .eq
    | none => false
  else evalFilterOp actual f.op f.value

/-! ## Raw bytes -/

/-- Evaluate an operator against the bytes of a column; `none` when that cannot be
done without decoding them. -/
def evalFilterRaw (raw : List UInt8) (op : FilterOp) (expected : Value) : Option Bool :=
  match op, raw with
  | .isIn, _ => none
  | _, [] => none
  | .isNull, tag :: _ => some (tag == tagNull)
  | .isNotNull, tag :: _ => some (tag != tagNull)
  | op, tag :: _ =>
    if tag = tagText then
      match expected, op with
      | .text s, .eq =>
        if raw.length < 5 then none
        else
          let len := readLe raw 1 4
          if len ≠ (asBytes s).length then some false
          else if raw.length < 5 + len then none
          else some (slice raw 5 (5 + len) == asBytes s)
      | _, _ => none
    else if tag = tagInteger then
      match expected with
      | .integer expected =>
        if raw.length < 9 then none
        else
          let actual := (UInt64.ofNat (readLe raw 1 8)).toInt64
          some (op.holds (Ord.compare actual.toInt expected.toInt))
      | _ => none
    else none

/-- The loop of `eval_filter_raw_in`: one candidate after the other, until one is
the same or is of another type. -/
def evalCandidates (same : Value → Option Bool) : List Value → Option Bool
  | [] => some false
  | v :: values =>
      match same v with
      | none => none
      | some true => some true
      | some false => evalCandidates same values

def evalFilterRawIn (raw : List UInt8) (values : List Value) : Option Bool :=
  match raw, values with
  | [], _ => some false
  | _, [] => some false
  | tag :: _, values =>
    if tag = tagInteger then
      if raw.length < 9 then none
      else
        let actual := (UInt64.ofNat (readLe raw 1 8)).toInt64
        evalCandidates (fun v => match v with
          | .integer i => some (actual == i)
          | _ => none) values
    else if tag = tagText then
      if raw.length < 5 then none
      else
        let len := readLe raw 1 4
        if raw.length < 5 + len then none
        else
          let actual := slice raw 5 (5 + len)
          evalCandidates (fun v => match v with
            | .text s => some (len == (asBytes s).length && actual == asBytes s)
            | _ => none) values
    else none

def evalFilterRawFull (raw : List UInt8) (f : Filter) : Option Bool :=
  if f.op = .isIn then
    match f.inValues with
    | some values => evalFilterRawIn raw values
    | none => some false
  else evalFilterRaw raw f.op f.value

/-! ## Rows -/

/-- `AUTO_ID_COL`: the name of the row id. -/
def autoIdCol : String := "_id"

/-- What `Row::get` reads where the row does not have the column. -/
def absentValue (colDefs : List ColumnDef) (colId : UInt16) : Value :=
  ((colDefs[colId.toNat]?).bind ColumnDef.default).getD .null

/-- `.ok().flatten()`: an error counts as no value, a panic does not. -/
def orAbsent {α : Type} : Result (Option α) → Result (Option α)
  | .error (.error _) => .ok none
  | r => r

/-- Evaluate a filter against a column: its raw bytes where they can be compared,
else its value, or `absent` where there is none. -/
def columnMatches (bytes : List UInt8) (colId : UInt16) (absent : Value) (f : Filter) :
    Result Bool := do
  let raw ← orAbsent (extractColumnRaw bytes colId)
  match raw.bind fun raw => evalFilterRawFull raw f with
  | some result => pure result
  | none => do
      let v ← orAbsent (extractColumn bytes colId)
      pure (f.matches (v.getD absent))

/-- Evaluate one filter against the bytes of a row.  `row_id as i64` reads a row id as a
signed number. -/
def filterMatchesRow (colNameToId : String → Option UInt16) (colDefs : List ColumnDef)
    (bytes : List UInt8) (f : Filter) : Result Bool :=
  if f.column = autoIdCol then
    match extractId bytes with
    | .ok rowId => .ok (f.matches (.integer rowId.toInt64))
    | .error (.error _) => .ok false
    | .error e => .error e
  else
    match colNameToId f.column with
    | some colId => columnMatches bytes colId (absentValue colDefs colId) f
    | none => .ok (f.matches .null)

/-- `ALL(filters) AND (or_groups.is_empty() OR ANY(group: ALL(group)))`. -/
def rowPasses (colNameToId : String → Option UInt16) (colDefs : List ColumnDef)
    (bytes : List UInt8) (filters : List Filter) (orGroups : List (List Filter)) :
    Result Bool := do
  let all ← filters.allM (filterMatchesRow colNameToId colDefs bytes)
  if !all then pure false
  else if orGroups.isEmpty then pure true
  else orGroups.anyM fun group => group.allM (filterMatchesRow colNameToId colDefs bytes)

/-- The predicate of `update_where` and `delete_where`, which they evaluate on the bytes
a leaf holds: it knows no row id and no defaults. -/
def inlineMatches (colNameToId : String → Option UInt16) (filters : List Filter)
    (bytes : List UInt8) : Result Bool :=
  filters.allM fun f =>
    match colNameToId f.column with
    | some colId => columnMatches bytes colId .null f
    | none => .ok (f.matches .null)

/-- What `scan_filtered` and `count_filtered` make of the bytes a leaf holds: a cell
without the column is put together before it is asked again. -/
def cellMatches (read : ℕ → Result Page) (data : List UInt8) (colId : UInt16) (op : FilterOp)
    (value absent : Value) : Result Bool := do
  match ← orAbsent (extractColumnRaw data colId) with
  | some raw =>
      match evalFilterRaw raw op value with
      | some result => pure result
      | none => do
          let v ← extractColumn data colId
          pure (evalFilterOp (v.getD .null) op value)
  | none =>
      if hasOverflow data then do
        let full ← reassembleRow read data
        let v ← extractColumn full colId
        pure (evalFilterOp (v.getD absent) op value)
      else pure (evalFilterOp absent op value)

end BoogyDb
