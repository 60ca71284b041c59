import BoogyDb.IndexKey
import BoogyDb.Index
import BoogyDb.Lib.StableSort
import BoogyDb.Scan
import Mathlib.Data.List.Destutter
import Mathlib.Data.List.Sort

/-!
# Finding and counting rows

`find` has four ways to collect the rows that match: through an index, by a scan for
one filter on raw bytes, by a scan for all rows, and by a scan that evaluates the
whole predicate.  Each paginates in its own place.  `countWith` chooses between four
ways of its own.
-/

namespace BoogyDb

open StableSort (sliceSortBy)

inductive SortDir
  | asc
  | desc
deriving DecidableEq

structure SortKey where
  column : String
  dir : SortDir

structure FindOptions where
  filters : List Filter
  /-- Groups of which one has to match, besides `filters`. -/
  orGroups : List (List Filter)
  sort : List SortKey
  limit : Option UInt32
  offset : Option UInt32
  includeTotal : Bool

/-- A row as it is returned: its id and its bytes. -/
structure Row where
  id : UInt64
  data : List UInt8
deriving DecidableEq

structure FindResult where
  rows : List Row
  total : Option ℕ
deriving DecidableEq

/-! ## Rows -/

/-- `Row::from_raw`. -/
def Row.fromRaw (bytes : List UInt8) : Result Row := do
  let id ← extractId bytes
  pure ⟨id, bytes⟩

/-- `unwrap`: an error becomes a panic. -/
def unwrap {α : Type} : Result α → Result α
  | .error (.error _) => panic
  | r => r

/-- The position of the first live column with this name. -/
def liveColumn (colNames : List String) (colDefs : List ColumnDef) (column : String) :
    Option ℕ :=
  (List.range colNames.length).find? fun idx => colNames[idx]? = some column &&
    ((colDefs[idx]?).map fun d => !d.dropped).getD false

/-- `Row::get`: the value stored for the column, or its default.  A row that is returned
carries the names and the definitions of the columns of its table. -/
def Row.get (row : Row) (colNames : List String) (colDefs : List ColumnDef) (column : String) :
    Result (Option Value) :=
  if column = autoIdCol then .ok (some (.integer row.id.toInt64))
  else
    match liveColumn colNames colDefs column with
    | none => .ok none
    | some idx => do
        let stored ← orAbsent (extractColumn row.data (UInt16.ofNat idx))
        match stored with
        | some v => pure (some v)
        | none => pure ((colDefs[(UInt16.ofNat idx).toNat]?).bind ColumnDef.default)

/-! ## Sorting and pagination -/

/-- The order of two values of a sort column; a row without the column comes first. -/
def compareCells : Option Value → Option Value → Ordering
  | some a, some b => (a.compare b).getD .eq
  | some _, none => .gt
  | none, some _ => .lt
  | none, none => .eq

def SortDir.apply : SortDir → Ordering → Ordering
  | .asc, ord => ord
  | .desc, ord => ord.swap

/-- One sort.  The cells are only looked at when there are rows to compare. -/
def sortByKey (colNames : List String) (colDefs : List ColumnDef) (rows : List Row)
    (key : SortKey) : Result (List Row) :=
  if rows.length < 2 then .ok rows
  else do
    let cells ← rows.mapM fun row => do
      let v ← row.get colNames colDefs key.column
      pure (v, row)
    let sorted ← orUnspecified
      (sliceSortBy (fun a b => key.dir.apply (compareCells a.1 b.1)) cells)
    pure (sorted.map Prod.snd)

/-- The last key is sorted by first. -/
def sortRows (colNames : List String) (colDefs : List ColumnDef) (keys : List SortKey)
    (rows : List Row) : Result (List Row) :=
  keys.reverse.foldlM (sortByKey colNames colDefs) rows

namespace FindOptions

/-- May a scan stop before it has seen all rows? -/
def canShortCircuit (opts : FindOptions) : Bool := opts.sort.isEmpty && !opts.includeTotal

def skip (opts : FindOptions) : ℕ := (opts.offset.map UInt32.toNat).getD 0

def take (opts : FindOptions) : ℕ := (opts.limit.map UInt32.toNat).getD (2 ^ 32 - 1)

/-- `offset + limit`, when there is a limit and the scan may stop. -/
def stopAfter (opts : FindOptions) : Option ℕ :=
  if opts.canShortCircuit then opts.limit.map fun l => opts.skip + l.toNat else none

def page {α : Type} (opts : FindOptions) (rows : List α) : List α :=
  (rows.drop opts.skip).take opts.take

end FindOptions

/-! ## Ways to collect -/

/-- What a branch of `find` collected: the rows, how many there are before pagination,
and whether they are one page already. -/
structure Collected where
  rows : List Row
  total : ℕ
  paginated : Bool

/-- The first filter that an index answers. -/
def indexCandidate (state : TableMeta) (opts : FindOptions) : Option Filter :=
  if opts.orGroups.isEmpty then
    opts.filters.find? fun f =>
      (f.op = .eq || f.op = .isIn) && (state.findIndexForColumn f.column).isSome
  else none

section

variable [Crc32Fast]

/-- The row ids an index has for a filter, in order; `none` when the filter has nothing
to look up.  `need` is how many keys the caller asks for. -/
def indexRowids (file : PageFile) (rootPage : ℕ) (colType : ColumnType) (f : Filter)
    (need : Option ℕ) : Result (Option (List UInt64)) :=
  if f.op = .isIn then
    match f.inValues with
    | none => pure none
    | some [] => pure none
    | some values => do
        let found ← values.mapM fun val =>
          match encodeValuePrefix colType val with
          | none => pure []
          | some pre => do
              let keys ← IndexTreeReader.scanPrefix file rootPage pre
              keys.mapM (extractRowid colType)
        pure (some ((found.flatten.insertionSort (· ≤ ·)).destutter (· ≠ ·)))
  else
    match encodeValuePrefix colType f.value with
    | none => pure none
    | some pre => do
        let keys ←
          match need with
          | some n => IndexTreeReader.scanPrefixLimit file rootPage pre n
          | none => IndexTreeReader.scanPrefix file rootPage pre
        let rowids ← keys.mapM (extractRowid colType)
        pure (some (rowids.insertionSort (· ≤ ·)))

/-- Through an index. -/
def findByIndex (file : PageFile) (state : TableMeta) (opts : FindOptions) (f : Filter) :
    Result Collected :=
  match state.findIndexForColumn f.column, state.firstType f.column with
  | some idx, some colType => do
      let need := if opts.canShortCircuit then some (opts.skip + opts.take) else none
      match ← indexRowids file idx.rootPage colType f need with
      | none => pure ⟨[], 0, true⟩
      | some rowids => do
          let rawRows ← BTreeReader.multiGetSorted file state.rootPage rowids
          let passing ←
            if 1 < opts.filters.length then
              rawRows.filterM fun bytes =>
                opts.filters.allM (filterMatchesRow state.colNameToId state.colDefs bytes)
            else pure rawRows
          let rows ← passing.mapM Row.fromRaw
          if opts.sort.isEmpty then pure ⟨opts.page rows, rows.length, true⟩
          else pure ⟨rows, rows.length, false⟩
  | _, _ => panic

/-- By a scan for one filter. -/
def findByFilter (file : PageFile) (state : TableMeta) (opts : FindOptions) (f : Filter) :
    Result Collected :=
  match state.colId f.column with
  | none => pure ⟨[], 0, false⟩
  | some colId => do
      let absentDefault := (state.colDefs[colId.toNat]?).bind ColumnDef.default
      -- a sort needs all rows
      let (limit, offset) := if opts.sort.isEmpty then (opts.limit, opts.offset) else (none, none)
      let (rawRows, count) ← BTreeReader.scanFiltered file state.rootPage colId f.op f.value limit
        offset opts.stopAfter absentDefault
      let rows ← rawRows.mapM fun r => unwrap (Row.fromRaw r.2)
      pure ⟨rows, count, opts.sort.isEmpty⟩

/-- All rows. -/
def findAll (file : PageFile) (state : TableMeta) : Result Collected := do
  let all ← BTreeReader.scanAll file state.rootPage
  let rows ← all.mapM fun r => unwrap (Row.fromRaw r.2)
  pure ⟨rows, rows.length, false⟩

/-- By a scan that evaluates the whole predicate. -/
def findByScan (file : PageFile) (state : TableMeta) (opts : FindOptions) : Result Collected := do
  let rawRows ← BTreeReader.scanAllMatching file state.rootPage
    (fun bytes => rowPasses state.colNameToId state.colDefs bytes opts.filters opts.orGroups)
    opts.stopAfter
  let rows ← rawRows.mapM fun r => Row.fromRaw r.2
  pure ⟨rows, rows.length, false⟩

def collectMatching (file : PageFile) (state : TableMeta) (opts : FindOptions) :
    Result Collected :=
  match indexCandidate state opts with
  | some f => findByIndex file state opts f
  | none =>
    match opts.orGroups, opts.filters with
    | [], [f] =>
        if f.op ≠ .isIn ∧ f.column ≠ autoIdCol then findByFilter file state opts f
        else findByScan file state opts
    | [], [] => findAll file state
    | _, _ => findByScan file state opts

/-- `BoogyDb::find`. -/
def find (file : PageFile) (state : TableMeta) (opts : FindOptions) : Result FindResult := do
  let found ← collectMatching file state opts
  let sorted ← sortRows state.colNames state.colDefs opts.sort found.rows
  let rows :=
    if opts.sort.isEmpty && found.paginated then sorted
    else opts.page sorted
  pure ⟨rows, if opts.includeTotal then some found.total else none⟩

/-! ## Counting -/

/-- A scan that evaluates the whole predicate. -/
def countByScan (file : PageFile) (state : TableMeta) (filters : List Filter)
    (orGroups : List (List Filter)) : Result ℕ := do
  let all ← BTreeReader.scanAll file state.rootPage
  let passing ← all.filterM fun r =>
    rowPasses state.colNameToId state.colDefs r.2 filters orGroups
  pure passing.length

/-- The number of keys an index has for an `Eq` filter, if it answers it. -/
def countByIndex (file : PageFile) (state : TableMeta) (f : Filter) : Option (Result ℕ) := do
  if f.op = .eq then
    let idx ← state.findIndexForColumn f.column
    let colType ← state.firstType f.column
    let pre ← encodeValuePrefix colType f.value
    pure (IndexTreeReader.countPrefix file idx.rootPage pre)
  else none

/-- The count of one filter on raw bytes, where it applies. -/
def countByFilter (file : PageFile) (state : TableMeta) (f : Filter) : Option (Result ℕ) :=
  if f.op ≠ .isIn ∧ f.column ≠ autoIdCol then
    match state.colId f.column with
    | none => some (pure 0)
    | some colId =>
      if ((state.colDefs[colId.toNat]?).bind ColumnDef.default).isSome then none
      else some (BTreeReader.countFiltered file state.rootPage colId f.op f.value)
  else none

/-- `BoogyDb::count_with`. -/
def countWith (file : PageFile) (state : TableMeta) (filters : List Filter)
    (orGroups : List (List Filter)) : Result ℕ :=
  match orGroups, filters with
  | [], [] => pure state.rowCount.toNat
  | [], [f] =>
      ((countByIndex file state f).orElse fun _ => countByFilter file state f).getD
        (countByScan file state filters orGroups)
  | _, _ => countByScan file state filters orGroups

end

end BoogyDb
