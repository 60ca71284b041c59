import BoogyDb.AcidTransaction

/-!
# Paging through a table

`scanBatch` returns up to `limit` rows in an order, from strictly after the row that `after`
names, and the token to go on from.  Outside a transaction it walks the leaves of a tree
from where the token leads, forward or backward; inside one it scans the table through the
overlay and cuts the window out of what it has read.
-/

namespace BoogyDb

open Bytes

/-- Where a scan goes on. -/
structure ScanKey where
  bytes : List UInt8
  rowid : UInt64
deriving DecidableEq

inductive ScanOrderKind
  | primaryKey
  | index (name : String)

structure ScanOrder where
  kind : ScanOrderKind
  dir : SortDir

structure ScanBatch where
  rows : List Row
  /-- The token for the next batch, or `none` when there is nothing more. -/
  lastKey : Option ScanKey
deriving DecidableEq

/-- Is `key` strictly after the bound, in this direction? -/
def SortDir.beyond {κ : Type} [LT κ] [DecidableLT κ] (dir : SortDir) (after : Option κ)
    (key : κ) : Bool :=
  match after with
  | none => true
  | some bound =>
    match dir with
    | .asc => decide (bound < key)
    | .desc => decide (key < bound)

/-- The positions of a page in the order they are visited. -/
def SortDir.order {α : Type} (dir : SortDir) (xs : List α) : List α :=
  match dir with
  | .asc => xs
  | .desc => xs.reverse

/-- The next leaf in a direction. -/
def SortDir.link (dir : SortDir) (page : Page) : ℕ :=
  match dir with
  | .asc => page.nextLeaf
  | .desc => page.prevLeaf

/-- `walkLeaves` in a direction. -/
def walkToward {α : Type} (dir : SortDir) (cycleError : String) (read : ℕ → Result Page)
    (visit : Page → α → Result (α × Bool)) : ℕ → ℕ → α → Result α
  | 0, _, _ => fail (.corruption cycleError)
  | fuel + 1, current, acc => do
      let page ← read current
      let (acc, stop) ← visit page acc
      if stop ∨ dir.link page = 0 then pure acc
      else walkToward dir cycleError read visit fuel (dir.link page) acc

/-- The name of the direction in an error text. -/
def SortDir.name : SortDir → String
  | .asc => "Asc"
  | .desc => "Desc"

/-- `rowid_from_index_key`: the last eight bytes of a key. -/
def rowidFromIndexKey (key : List UInt8) : Result UInt64 :=
  if key.length < 8 then panic
  else do
    let bs ← bytesOf key (key.length - 8) key.length
    pure (fromBeBytes bs)

/-! ## The row tree -/

/-- The step of `scan_from`: what was collected, and the token. -/
def fromRow (read : ℕ → Result Page) (keep : List UInt8 → Result Bool) (dir : SortDir)
    (after : Option UInt64) (limit : ℕ) (acc : RowList × Option UInt64) (data : List UInt8) :
    Result ((RowList × Option UInt64) × Bool) :=
  match extractId data with
  | .ok id =>
    if !dir.beyond after id then pure (acc, false)
    else if limit ≤ acc.1.length then pure ((acc.1, acc.1.getLast?.map Prod.fst), true)
    else do
      let full ← reassembleRow read data
      if ← keep full then pure ((acc.1 ++ [(id, full)], acc.2), false) else pure (acc, false)
  | .error (.error _) => pure (acc, false)
  | .error e => .error e

namespace BTreeReader

variable [Crc32Fast]

/-- The last leaf: where the largest row id belongs. -/
def findRightmostLeaf (file : PageFile) (root : ℕ) : Result ℕ := do
  let (leaf, _) ← descend "B+ tree depth exceeds maximum in find_rightmost_leaf" file.readPage
    (routeKey rowBranch (UInt64.ofNat (2 ^ 64 - 1))) maxTreeDepth root
  pure leaf

/-- The leaf a scan starts in. -/
def startLeaf (file : PageFile) (root : ℕ) (dir : SortDir) (after : Option UInt64) : Result ℕ :=
  match after, dir with
  | some rowid, _ => findLeafForRowid file root rowid
  | none, .asc => findLeftmostLeaf file root
  | none, .desc => findRightmostLeaf file root

/-- Up to `limit` rows that pass `keep`, and the last one's id if there are more rows. -/
def scanFrom (file : PageFile) (root : ℕ) (after : Option UInt64) (dir : SortDir) (limit : UInt32)
    (keep : List UInt8 → Result Bool) : Result (RowList × Option UInt64) :=
  if limit = 0 then pure ([], none)
  else do
    let leaf ← startLeaf file root dir after
    walkToward dir s!"leaf chain cycle detected in scan_from({dir.name})" file.readPage
      (fun page acc => scanRows page (fromRow file.readPage keep dir after limit.toNat)
        (dir.order (List.range page.numRows)) acc) file.pageCount leaf ([], none)

end BTreeReader

/-! ## The index tree -/

namespace IndexTreeReader

/-- The part of `scan_from_key` on one leaf. -/
def fromLeaf (dir : SortDir) (after : Option (List UInt8)) (limit : ℕ) (page : Page) :
    List ℕ → List (List UInt8) × Bool → Result ((List (List UInt8) × Bool) × Bool)
  | [], acc => pure (acc, false)
  | i :: idxs, acc => do
      match ← decodeLeafEntry page i page.numRows with
      | some key =>
          if !dir.beyond after key then fromLeaf dir after limit page idxs acc
          else if limit ≤ acc.1.length then pure ((acc.1, true), true)
          else fromLeaf dir after limit page idxs (acc.1 ++ [key], acc.2)
      | none => fromLeaf dir after limit page idxs acc

/-- Down the rightmost children. -/
def routeLast (page : Page) : Result ℕ := idxBranch.getBranchChild page page.numRows

variable [Crc32Fast]

def findLeftmostLeaf (file : PageFile) (root : ℕ) : Result ℕ := do
  let (leaf, _) ← descend "index B+ tree depth exceeds maximum in find_leftmost_leaf" file.readPage
    (routeFirst idxBranch) maxTreeDepth root
  pure leaf

def findRightmostLeaf (file : PageFile) (root : ℕ) : Result ℕ := do
  let (leaf, _) ← descend "index B+ tree depth exceeds maximum in find_rightmost_leaf"
    file.readPage routeLast maxTreeDepth root
  pure leaf

def startLeaf (file : PageFile) (root : ℕ) (dir : SortDir) (after : Option (List UInt8)) :
    Result ℕ :=
  match after, dir with
  | some key, _ => findLeafForKey file root key
  | none, .asc => findLeftmostLeaf file root
  | none, .desc => findRightmostLeaf file root

/-- Up to `limit` keys, and whether there are more. -/
def scanFromKey (file : PageFile) (root : ℕ) (after : Option (List UInt8)) (dir : SortDir)
    (limit : ℕ) : Result (List (List UInt8) × Bool) :=
  if limit = 0 then pure ([], false)
  else do
    let leaf ← startLeaf file root dir after
    walkToward dir s!"index leaf chain cycle detected in scan_from_key({dir.name})" file.readPage
      (fun page acc => fromLeaf dir after limit page (dir.order (List.range page.numRows)) acc)
      file.pageCount leaf ([], false)

end IndexTreeReader

/-! ## Outside a transaction -/

section

variable [Crc32Fast]

/-- Look up the rows of the keys an index returned; the token moves on with every key. -/
def fetchRows (file : PageFile) (root : ℕ) (passes : List UInt8 → Result Bool) :
    List (List UInt8) → ScanBatch → Result ScanBatch
  | [], acc => pure acc
  | key :: keys, acc => do
      let rowid ← rowidFromIndexKey key
      let lastKey := some ⟨key, rowid⟩
      match ← BTreeReader.search file root rowid with
      | some bytes =>
          if ← passes bytes then
            let row ← Row.fromRaw bytes
            fetchRows file root passes keys ⟨acc.rows ++ [row], lastKey⟩
          else fetchRows file root passes keys ⟨acc.rows, lastKey⟩
      | none => fetchRows file root passes keys ⟨acc.rows, lastKey⟩

def noSuchIndex (name table : String) : BoogyError :=
  .schemaMismatch s!"scan_batch: no index named '{name}' on table '{table}'"

/-- `BoogyDb::scan_batch`. -/
def scanBatch (file : PageFile) (table : String) (state : TableMeta) (filters : List Filter)
    (orGroups : List (List Filter)) (order : ScanOrder) (after : Option ScanKey)
    (limit : UInt32) : Result ScanBatch :=
  let passes := fun bytes => rowPasses state.colNameToId state.colDefs bytes filters orGroups
  match order.kind with
  | .primaryKey => do
      let (raw, lastRowid) ← BTreeReader.scanFrom file state.rootPage (after.map ScanKey.rowid)
        order.dir limit passes
      let rows ← raw.mapM fun r => Row.fromRaw r.2
      pure ⟨rows, lastRowid.map fun rowid => ⟨[], rowid⟩⟩
  | .index name =>
    match state.findIndex name with
    | none => fail (noSuchIndex name table)
    | some idx => do
        let (keys, _) ← IndexTreeReader.scanFromKey file idx.rootPage (after.map ScanKey.bytes)
          order.dir limit.toNat
        let batch ← fetchRows file state.rootPage passes keys ⟨[], none⟩
        -- fewer keys than asked for: there are no more
        if keys.length < limit.toNat then pure ⟨batch.rows, none⟩ else pure batch

end

/-! ## Inside a transaction -/

/-- The window of a primary-key scan: the rows beyond the bound that pass, up to `limit`. -/
def windowRows (passes : List UInt8 → Result Bool) (dir : SortDir) (after : Option UInt64)
    (limit : ℕ) : RowList → RowList → Result (RowList × Option UInt64)
  | [], acc => pure (acc, none)
  | (id, bytes) :: rows, acc =>
    if !dir.beyond after id then windowRows passes dir after limit rows acc
    else if limit ≤ acc.length then pure (acc, acc.getLast?.map Prod.fst)
    else do
      if ← passes bytes then windowRows passes dir after limit rows (acc ++ [(id, bytes)])
      else windowRows passes dir after limit rows acc

/-- The rows that pass and have a key, with the key. -/
def keyRows (cols : List (UInt16 × ColumnType)) (passes : List UInt8 → Result Bool) :
    RowList → Result (List (List UInt8 × List UInt8))
  | [] => pure []
  | (_, bytes) :: rows => do
      if ← passes bytes then
        let rowid ← extractId bytes
        let vals ← indexValues cols bytes
        let keyed ← keyRows cols passes rows
        match encodeCompositeIndexKey vals rowid with
        | some key => pure ((key, bytes) :: keyed)
        | none => pure keyed
      else keyRows cols passes rows

/-- The window of an index scan. -/
def windowKeyed (dir : SortDir) (after : Option (List UInt8)) (limit : ℕ) :
    List (List UInt8 × List UInt8) → ScanBatch → Result ScanBatch
  | [], acc => pure ⟨acc.rows, none⟩
  | (key, bytes) :: keyed, acc =>
    if !dir.beyond after key then windowKeyed dir after limit keyed acc
    else if acc.rows.length < limit then do
      let row ← Row.fromRaw bytes
      let rowid ← rowidFromIndexKey key
      windowKeyed dir after limit keyed ⟨acc.rows ++ [row], some ⟨key, rowid⟩⟩
    else pure acc

/-- The columns of an index, for its keys. -/
def scanColumns (table : String) (state : TableMeta) (idx : IndexMeta) :
    Result (List (UInt16 × ColumnType)) :=
  idx.columns.mapM fun column =>
    match state.colNameToId column, state.firstType column with
    | some colId, some colType => pure (colId, colType)
    | _, _ => fail (.schemaMismatch (s!"scan_batch(tx): index '{idx.name}' column '{column}' not " ++
        s!"found on table '{table}'"))

namespace InTransaction

variable [Crc32Fast]

/-- `AcidTransaction::scan_batch`. -/
def scanBatch (table : String) (filters : List Filter) (orGroups : List (List Filter))
    (order : ScanOrder) (after : Option ScanKey) (limit : UInt32) :
    StateResult InTransaction ScanBatch :=
  if limit = 0 then pure ⟨[], none⟩
  else do
    let state ← tableState table
    let passes := fun bytes => rowPasses state.colNameToId state.colDefs bytes filters orGroups
    match order.kind with
    | .primaryKey => do
        let all ← scanAll table state
        let (results, lastRowid) ← windowRows passes order.dir (after.map ScanKey.rowid)
          limit.toNat (order.dir.order all) []
        let rows ← (results.mapM fun r => Row.fromRaw r.2 : Result (List Row))
        pure ⟨rows, lastRowid.map fun rowid => ⟨[], rowid⟩⟩
    | .index name =>
      match state.findIndex name with
      | none => throw (.error (noSuchIndex name table))
      | some idx => do
          let cols ← scanColumns table state idx
          let all ← scanAll table state
          let keyed ← keyRows cols passes all
          let sorted := keyed.insertionSort fun a b => a.1 ≤ b.1
          windowKeyed order.dir (after.map ScanKey.bytes) limit.toNat (order.dir.order sorted)
            ⟨[], none⟩

end InTransaction

end BoogyDb
