import BoogyDb.Overflow
import BoogyDb.Row
import BoogyDb.Tree

/-!
# The table tree

The B+ tree of `btree.rs`: rows keyed by their 64-bit row id, in pages whose
rows may be inline cells of longer rows.  A leaf that is full is split at half
its row count; a leaf that cannot take an overflow cell is split where
`findOverflowSplitPoint` says.
-/

namespace BoogyDb

open Bytes BinarySearch WriteGuard

/-- Branch entries `[child:4][key:8]`. -/
def rowBranch : BranchFormat UInt64 where
  keySize := 8
  encode key := leBytes 8 key.toNat
  readKey := readU64
  norm := id
  length_encode _ := length_leBytes _ _
  encode_norm _ := rfl
  readKey_encode data off key hle hslice := by
    rw [readU64_ok hle, readLe, hslice, leNat_leBytes_of_lt key.toNat_lt]
    simp

/-! ## Leaves -/

/-- Compare the row id at `mid` with the target. -/
def probeRow (page : Page) (rowid : UInt64) (mid : ℕ) : Result Ordering := do
  let row ← rowSlice page mid page.numRows
  let midId ← extractId row
  pure (compare midId rowid)

/-- The position of `rowid` in a leaf, or the one where it belongs. -/
def findInsertionPoint (page : Page) (rowid : UInt64) : Result (ℕ × Bool) :=
  if page.numRows = 0 then .ok (0, false)
  else bsearch (probeRow page rowid) 0 page.numRows

/-- The row id at a position of the old rows with `newRow` inserted. -/
def extractIdAtVirtualPos (snapshot : Page) (oldCount insertPos : ℕ) (newRow : List UInt8)
    (virtualPos : ℕ) : Result UInt64 :=
  if virtualPos = insertPos then extractId newRow
  else do
    let row ← rowSlice snapshot (if virtualPos < insertPos then virtualPos else virtualPos - 1)
      oldCount
    extractId row

/-- Is a leaf of `count` rows and `data` row bytes within its page? -/
def leafFitsPage (count data : ℕ) : Bool :=
  pageHeaderSize + count * 2 + data + checksumSize ≤ pageSize

/-- The last of the candidate splits whose left half fits. -/
def growLeftHalf (sizes : List ℕ) : List ℕ → ℕ → ℕ → ℕ
  | [], _, best => best
  | mid :: mids, dataSum, best =>
      let dataSum := dataSum + sizes.getD (mid - 1) 0
      if leafFitsPage mid dataSum then growLeftHalf sizes mids dataSum mid else best

/-- The first of the candidate splits whose halves both fit. -/
def firstFittingSplit (sizes : List ℕ) (total : ℕ) : List ℕ → ℕ → Option ℕ
  | [], _ => none
  | mid :: mids, dataSum =>
      if leafFitsPage mid dataSum && leafFitsPage (total - mid) (sizes.drop mid).sum then some mid
      else firstFittingSplit sizes total mids (dataSum + sizes.getD mid 0)

/-- Where to split a leaf that cannot take an overflow cell. -/
def findOverflowSplitPoint (snapshot : Page) (oldCount insertPos : ℕ) (newRow : List UInt8)
    (total : ℕ) : Result ℕ := do
  let sizes ← (List.range total).mapM fun vi =>
    (virtualSource insertPos newRow vi).size snapshot oldCount
  let mids := List.range' 1 (total - 1)
  let best := growLeftHalf sizes mids 0 1
  if leafFitsPage (total - best) (sizes.drop best).sum then pure best
  else pure ((firstFittingSplit sizes total mids (sizes.getD 0 0)).getD (total / 2))

/-! ## Reading -/

/-- `search_recursive` and `search_recursive_w`. -/
def searchTree (depthError : String) (read : ℕ → Result Page) (root : ℕ) (rowid : UInt64) :
    Result (Option (List UInt8)) := do
  let (_, page) ← descend depthError read (routeKey rowBranch rowid) maxTreeDepth root
  if page.numRows = 0 then pure none
  else
    let (pos, found) ← findInsertionPoint page rowid
    if found then
      let (start, stop) ← rowBounds page pos page.numRows
      if start < stop ∧ stop ≤ pageSize then
        let raw ← bytesOf page.data start stop
        let full ← reassembleRow read raw
        pure (some full)
      else pure none
    else pure none

/-- Collect the rows of a leaf, reassembled. -/
def collectRows (read : ℕ → Result Page) (page : Page) (acc : List (UInt64 × List UInt8)) :
    Result (List (UInt64 × List UInt8) × Bool) := do
  let acc ← forRows page (fun acc _ data => do
    let full ← reassembleRow read data
    let id ← extractId full
    pure (acc ++ [(id, full)])) acc
  pure (acc, false)

namespace BTreeReader

variable [Crc32Fast]

/-- The row bytes stored for `rowid`. -/
def search (file : PageFile) (root : ℕ) (rowid : UInt64) : Result (Option (List UInt8)) :=
  searchTree "B+ tree depth exceeds maximum in search" file.readPage root rowid

/-- All rows in key order. -/
def scanAll (file : PageFile) (root : ℕ) : Result (List (UInt64 × List UInt8)) := do
  let (firstLeaf, _) ← descend "B+ tree depth exceeds maximum in find_leftmost_leaf"
    file.readPage (routeFirst rowBranch) maxTreeDepth root
  walkLeaves "leaf chain cycle detected in scan_all" file.readPage (collectRows file.readPage)
    file.pageCount firstLeaf []

/-- The leaf that contains, or would contain, `rowid`. -/
def findLeafForRowid (file : PageFile) (root : ℕ) (rowid : UInt64) : Result ℕ := do
  let (leaf, _) ← descend "B+ tree depth exceeds maximum in find_leaf_for_rowid" file.readPage
    (routeKey rowBranch rowid) maxTreeDepth root
  pure leaf

end BTreeReader

/-! ## Writing -/

namespace BTreeWriter

section

variable [Crc32Fast]

def create : StateResult WriteGuard ℕ := createTree

def insertIntoLeaf (rowid : UInt64) (rowData : List UInt8) (pageNo : ℕ) (page : Page) :
    StateResult WriteGuard (InsertResult UInt64) := do
  let (pos, found) ← findInsertionPoint page rowid
  if found then throw (.error (.duplicateKey rowid))
  else if neededSize page rowData.length ≤ pageSize then do
    insertInPlace pageNo page pos rowData
    pure .fit
  else if rowData.length > maxSingleRow then do
    let inline ← writeOverflowRow rowData maxSingleRow
    if neededSize page inline.length ≤ pageSize then do
      insertInPlace pageNo page pos inline
      pure .fit
    else do
      let mid ← findOverflowSplitPoint page page.numRows pos inline (page.numRows + 1)
      splitLeaf pageNo page pos inline mid
        (extractIdAtVirtualPos page page.numRows pos inline mid)
  else
    splitLeaf pageNo page pos rowData ((page.numRows + 1) / 2)
      (extractIdAtVirtualPos page page.numRows pos rowData ((page.numRows + 1) / 2))

/-- Insert a row; the result is the (possibly new) root. -/
def insert (root : ℕ) (rowid : UInt64) (rowData : List UInt8) : StateResult WriteGuard ℕ := do
  let result ← insertRecursive rowBranch "B+ tree depth exceeds maximum in insert_recursive" rowid
    (insertIntoLeaf rowid rowData) maxTreeDepth root
  growRoot rowBranch root result

/-- Delete a row; says whether it was there.  The pages of an overflow row stay
allocated. -/
def delete (root : ℕ) (rowid : UInt64) : StateResult WriteGuard Bool := do
  let (pageNo, page) ← readOnly fun guard => descend
    "B+ tree depth exceeds maximum in delete_recursive" guard.view (routeKey rowBranch rowid)
    maxTreeDepth root
  if page.numRows = 0 then pure false
  else
    let (pos, found) ← findInsertionPoint page rowid
    if found then
      removeInPlace pageNo page pos
      pure true
    else pure false

/-- `search` through the guard. -/
def search (guard : WriteGuard) (root : ℕ) (rowid : UInt64) : Result (Option (List UInt8)) :=
  searchTree "B+ tree depth exceeds maximum in search_recursive_w" guard.view root rowid

def findLeftmostLeafW (guard : WriteGuard) (root : ℕ) : Result ℕ := do
  let (leaf, _) ← descend "B+ tree depth exceeds maximum in find_leftmost_leaf_w" guard.view
    (routeFirst rowBranch) maxTreeDepth root
  pure leaf

def scanAllW (guard : WriteGuard) (root : ℕ) : Result (List (UInt64 × List UInt8)) := do
  let firstLeaf ← findLeftmostLeafW guard root
  let maxPages ← maxPages guard
  walkLeaves "leaf chain cycle detected in scan_all_w" guard.view (collectRows guard.view)
    maxPages firstLeaf []

/-- The rows of one leaf that satisfy `pred`: what they are, and where. -/
def matchRows (pred : List UInt8 → Bool) (guard : WriteGuard) (page : Page) :
    Result (List (UInt64 × List UInt8) × List ℕ) :=
  forRows page (fun acc i data =>
    if pred data then do
      let full ← reassembleRow guard.view data
      match extractId full with
      | .ok id => pure (acc.1 ++ [(id, full)], acc.2 ++ [i])
      | .error _ => pure acc
    else pure acc) ([], [])

/-- The part of `delete_matching` on one leaf. -/
def deleteMatchingLeaf (pred : List UInt8 → Bool) (current : ℕ) (page : Page)
    (deleted : List (UInt64 × List UInt8)) :
    StateResult WriteGuard (List (UInt64 × List UInt8)) := do
  let (matched, matchIndices) ← readOnly fun guard => matchRows pred guard page
  if matchIndices = [] then pure (deleted ++ matched)
  else
    modifyPage current fun wp => do
      let wp ← writeLeafWithoutMultiple wp page page.numRows matchIndices
      pure ((wp.setNextLeaf page.nextLeaf).setPrevLeaf page.prevLeaf).updateChecksum
    pure (deleted ++ matched)

/-- Delete all rows whose raw bytes satisfy `pred`. -/
def deleteMatching (root : ℕ) (pred : List UInt8 → Bool) :
    StateResult WriteGuard (List (UInt64 × List UInt8)) := do
  let firstLeaf ← readOnly fun guard => findLeftmostLeafW guard root
  let maxPages ← readOnly maxPages
  rewriteLeaves "leaf chain cycle detected in delete_matching" (deleteMatchingLeaf pred) maxPages
    firstLeaf []

/-- A row and its replacement: `(rowid, old_bytes, new_bytes)`. -/
abbrev RowUpdate := UInt64 × List UInt8 × List UInt8

/-- The replacements for one leaf, with their positions. -/
def replaceRows (pred : List UInt8 → Bool) (updater : List UInt8 → List UInt8)
    (guard : WriteGuard) (page : Page) : Result (List (ℕ × RowUpdate)) :=
  forRows page (fun acc i data =>
    if pred data then do
      let full ← reassembleRow guard.view data
      let newBytes := updater full
      match extractId full with
      | .ok id => pure (acc ++ [(i, id, full, newBytes)])
      | .error _ => pure acc
    else pure acc) []

/-- The part of `update_matching` on one leaf: the rows that are replaced in
place go to the first list, those whose leaf would not fit to the second. -/
def updateMatchingLeaf (pred : List UInt8 → Bool) (updater : List UInt8 → List UInt8)
    (current : ℕ) (page : Page) (acc : List RowUpdate × List RowUpdate) :
    StateResult WriteGuard (List RowUpdate × List RowUpdate) := do
  let replacements ← readOnly fun guard => replaceRows pred updater guard page
  if replacements = [] then pure acc
  else
    let wp ← readPage current
    let rewritten ← writeLeafWithReplacements wp page page.numRows
      (replacements.map fun r => (r.1, r.2.2.2))
    match rewritten with
    | some wp => do
        putPage current wp
        pure (acc.1 ++ replacements.map Prod.snd, acc.2)
    | none => do
        putPage current page
        pure (acc.1, acc.2 ++ replacements.map Prod.snd)

/-- Update the rows whose raw bytes satisfy `pred`: `(updated_in_place, overflow)`. -/
def updateMatching (root : ℕ) (pred : List UInt8 → Bool) (updater : List UInt8 → List UInt8) :
    StateResult WriteGuard (List RowUpdate × List RowUpdate) := do
  let firstLeaf ← readOnly fun guard => findLeftmostLeafW guard root
  let maxPages ← readOnly maxPages
  rewriteLeaves "leaf chain cycle detected in update_matching" (updateMatchingLeaf pred updater)
    maxPages firstLeaf ([], [])

end

end BTreeWriter

end BoogyDb
