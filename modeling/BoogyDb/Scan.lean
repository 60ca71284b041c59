import BoogyDb.BTree
import BoogyDb.Filter

/-!
# Scans of a table tree

The reads that `find` and `count_with` choose from: all rows that pass a
predicate, the rows of some ids, the rows that pass one filter, and their number.
They walk the leaf chain and may stop early.
-/

namespace BoogyDb

open Bytes

/-- Visit the rows of a leaf until `step` says to stop. -/
def scanRows {α : Type} (page : Page) (step : α → List UInt8 → Result (α × Bool)) :
    List ℕ → α → Result (α × Bool)
  | [], acc => pure (acc, false)
  | i :: idxs, acc => do
      let (start, stop) ← rowBounds page i page.numRows
      if start < stop ∧ stop ≤ pageSize then do
        let data ← bytesOf page.data start stop
        let (acc, done) ← step acc data
        if done then pure (acc, true) else scanRows page step idxs acc
      else scanRows page step idxs acc

/-- Rows with their ids. -/
abbrev RowList := List (UInt64 × List UInt8)

/-- The step of `scan_all_matching`. -/
def keepRow (read : ℕ → Result Page) (keep : List UInt8 → Result Bool) (cap : Option ℕ)
    (results : RowList) (data : List UInt8) : Result (RowList × Bool) :=
  if cap.any (· ≤ results.length) then pure (results, true)
  else do
    let full ← reassembleRow read data
    if ← keep full then
      let id ← extractId full
      pure (results ++ [(id, full)], false)
    else pure (results, false)

/-- The step of `multi_get_sorted`: the ids still to find, and what was found. -/
def takeRow (read : ℕ → Result Page) (acc : List UInt64 × List (List UInt8))
    (data : List UInt8) : Result ((List UInt64 × List (List UInt8)) × Bool) :=
  match extractId data with
  | .ok rowId =>
    match acc.1.dropWhile fun id => id < rowId with
    | [] => pure (([], acc.2), true)
    | id :: ids =>
      if id = rowId then do
        let full ← reassembleRow read data
        pure ((ids, acc.2 ++ [full]), false)
      else pure ((id :: ids, acc.2), false)
  | .error (.error _) => pure (acc, false)
  | .error e => .error e

/-- The step of `scan_filtered`: what was collected, and how many rows matched. -/
def filterRow (read : ℕ → Result Page) (colId : UInt16) (op : FilterOp) (value absent : Value)
    (skip take : ℕ) (stopAfter : Option ℕ) (acc : RowList × ℕ) (data : List UInt8) :
    Result ((RowList × ℕ) × Bool) := do
  if ← cellMatches read data colId op value absent then
    let total := acc.2 + 1
    let results ←
      if skip < total ∧ total - skip ≤ take then do
        let full ← reassembleRow read data
        let id ← extractId full
        pure (acc.1 ++ [(id, full)])
      else pure acc.1
    pure ((results, total), stopAfter.any (· ≤ total))
  else pure (acc, false)

namespace BTreeReader

variable [Crc32Fast]

def findLeftmostLeaf (file : PageFile) (root : ℕ) : Result ℕ := do
  let (leaf, _) ← descend "B+ tree depth exceeds maximum in find_leftmost_leaf" file.readPage
    (routeFirst rowBranch) maxTreeDepth root
  pure leaf

/-- The rows that pass `keep`, up to `stop_after` of them. -/
def scanAllMatching (file : PageFile) (root : ℕ) (keep : List UInt8 → Result Bool)
    (stopAfter : Option ℕ) : Result RowList := do
  let firstLeaf ← findLeftmostLeaf file root
  walkLeaves "leaf chain cycle detected in scan_all_matching" file.readPage (fun page acc => do
    let (results, done) ← scanRows page (keepRow file.readPage keep stopAfter)
      (List.range page.numRows) acc
    pure (results, done || stopAfter.any (· ≤ results.length))) file.pageCount firstLeaf []

/-- The rows of ids that are sorted. -/
def multiGetSorted (file : PageFile) (root : ℕ) (rowids : List UInt64) :
    Result (List (List UInt8)) :=
  match rowids with
  | [] => pure []
  | rowid :: _ => do
      let leaf ← findLeafForRowid file root rowid
      let (_, results) ← walkLeaves "leaf chain cycle detected in multi_get_sorted" file.readPage
        (fun page acc => do
          let (acc, done) ← scanRows page (takeRow file.readPage) (List.range page.numRows) acc
          pure (acc, done || acc.1.isEmpty)) file.pageCount leaf (rowids, [])
      pure results

/-- The rows that pass one filter, a page of them, and how many there are. -/
def scanFiltered (file : PageFile) (root : ℕ) (colId : UInt16) (op : FilterOp) (value : Value)
    (limit offset : Option UInt32) (stopAfter : Option ℕ) (absentDefault : Option Value) :
    Result (RowList × ℕ) := do
  let firstLeaf ← findLeftmostLeaf file root
  let skip := (offset.map UInt32.toNat).getD 0
  let take := (limit.map UInt32.toNat).getD (2 ^ 32 - 1)
  walkLeaves "leaf chain cycle detected in scan_filtered" file.readPage
    (fun page acc => scanRows page (filterRow file.readPage colId op value
      (absentDefault.getD .null) skip take stopAfter) (List.range page.numRows) acc)
    file.pageCount firstLeaf ([], 0)

def countFiltered (file : PageFile) (root : ℕ) (colId : UInt16) (op : FilterOp) (value : Value) :
    Result ℕ := do
  let firstLeaf ← findLeftmostLeaf file root
  walkLeaves "leaf chain cycle detected in count_filtered" file.readPage
    (fun page count => scanRows page (fun (count : ℕ) data => do
      let matched ← cellMatches file.readPage data colId op value .null
      pure (if matched then count + 1 else count, false)) (List.range page.numRows) count)
    file.pageCount firstLeaf 0

end BTreeReader

end BoogyDb
