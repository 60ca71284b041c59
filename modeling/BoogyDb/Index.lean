import BoogyDb.Tree
import BoogyDb.Lib.BinarySearch
import Mathlib.Data.List.Lex

/-!
# The index tree

The B+ tree of `index.rs`: a set of byte strings.  Leaves hold entries
`[len:2][key]`; branch entries are `[child:4][key_len:2][key:36]` and keep no
more than 36 bytes of a separator.
-/

namespace BoogyDb

open Bytes BinarySearch WriteGuard

/-- `IDX_BRANCH_KEY_MAX`. -/
def idxBranchKeyMax : ℕ := 36

/-- The key bytes of a branch entry: the length and the key, cut off and
zero-padded. -/
def encodeIdxBranchKey (key : List UInt8) : List UInt8 :=
  leBytes 2 (min key.length idxBranchKeyMax) ++ pad idxBranchKeyMax key

def readIdxBranchKey (data : List UInt8) (off : ℕ) : Result (List UInt8) := do
  let keyLen ← readU16 data off
  let keyLen := min keyLen idxBranchKeyMax
  bytesOf data (off + 2) (off + 2 + keyLen)

theorem encodeIdxBranchKey_take (key : List UInt8) :
    encodeIdxBranchKey (key.take idxBranchKeyMax) = encodeIdxBranchKey key := by
  have hpad : pad idxBranchKeyMax (key.take idxBranchKeyMax) = pad idxBranchKeyMax key := by
    rw [pad, pad, List.take_take, Nat.min_self, List.length_take]
    congr 2
    omega
  rw [encodeIdxBranchKey, encodeIdxBranchKey, hpad, List.length_take]
  congr 2
  omega

/-- A branch key reads back as its first 36 bytes. -/
theorem readIdxBranchKey_encode {data key : List UInt8} {off : ℕ} (hle : off + 38 ≤ data.length)
    (hslice : slice data off (off + 38) = encodeIdxBranchKey key) :
    readIdxBranchKey data off = .ok (key.take idxBranchKeyMax) := by
  set len := min key.length idxBranchKeyMax with hlen
  have hlen36 : len ≤ 36 := Nat.min_le_right _ _
  have hwindow : ∀ a b, b ≤ 38 → slice data (off + a) (off + b) =
      slice (encodeIdxBranchKey key) a b := by
    intro a b hb
    rw [← hslice, slice_slice data off (by omega)]
  have hread : readU16 data off = .ok len := by
    have hfield : slice (encodeIdxBranchKey key) 0 2 = leBytes 2 len :=
      slice_eq_of_append (List.nil_append _).symm rfl (by simp)
    rw [readU16_ok (by omega), readLe]
    have := hwindow 0 2 (by omega)
    rw [Nat.add_zero] at this
    rw [this, hfield, leNat_leBytes_of_lt (by omega)]
  have hkey : slice (encodeIdxBranchKey key) 2 (2 + len) = key.take idxBranchKeyMax := by
    have hsplit : encodeIdxBranchKey key = leBytes 2 len ++ (key.take idxBranchKeyMax ++
        List.replicate (idxBranchKeyMax - key.length) 0) := rfl
    exact slice_eq_of_append hsplit (by simp) (by simp [hlen, Nat.min_comm])
  rw [readIdxBranchKey, hread, ok_bind]
  dsimp only
  rw [Nat.min_eq_left (show len ≤ idxBranchKeyMax from hlen36),
    bytesOf_ok (Nat.le_add_right _ _) (by omega), Nat.add_assoc, hwindow 2 (2 + len) (by omega),
    hkey]

/-- Branch entries `[child:4][key_len:2][key_data:36]`. -/
def idxBranch : BranchFormat (List UInt8) where
  keySize := 38
  encode := encodeIdxBranchKey
  readKey := readIdxBranchKey
  norm key := key.take idxBranchKeyMax
  length_encode _ := by rw [encodeIdxBranchKey, List.length_append, length_leBytes, length_pad]; rfl
  encode_norm := encodeIdxBranchKey_take
  readKey_encode _ _ _ hle hslice := readIdxBranchKey_encode hle hslice

/-! ## Leaves -/

/-- Entry bytes `[len:2][key_bytes]`. -/
def encodeEntry (key : List UInt8) : List UInt8 := leBytes 2 key.length ++ key

/-- The key of entry `i` (`decode_leaf_entry` and `decode_leaf_entry_raw`);
`none` for an entry that does not hold a whole key. -/
def decodeLeafEntry (page : Page) (i numEntries : ℕ) : Result (Option (List UInt8)) := do
  let (start, stop) ← rowBounds page i numEntries
  if start + 2 > stop ∨ stop > pageSize then pure none
  else
    let keyLen ← readU16 page.data start
    let keyStart := start + 2
    let keyEnd := keyStart + keyLen
    if keyEnd > stop then pure none
    else
      let key ← bytesOf page.data keyStart keyEnd
      pure (some key)

/-- Compare entry `mid` with the key; a broken entry is skipped over. -/
def probeEntry (page : Page) (key : List UInt8) (mid : ℕ) : Result Ordering := do
  match ← decodeLeafEntry page mid page.numRows with
  | some midKey => pure (compare midKey key)
  | none => pure .lt

/-- The position where `key` is to be inserted. -/
def findIdxInsertionPoint (page : Page) (key : List UInt8) : Result ℕ :=
  if page.numRows = 0 then .ok 0
  else do
    let (pos, _) ← bsearch (probeEntry page key) 0 page.numRows
    pure pos

/-- The key at a position of the old entries with `newKey` inserted. -/
def extractKeyAtVirtualPos (snapshot : Page) (oldCount insertPos : ℕ) (newKey : List UInt8)
    (virtualPos : ℕ) : Result (List UInt8) :=
  if virtualPos = insertPos then .ok newKey
  else do
    let key ← decodeLeafEntry snapshot
      (if virtualPos < insertPos then virtualPos else virtualPos - 1) oldCount
    pure (key.getD [])

/-- The loop of `delete_recursive` over the entries of a leaf: it stops at the
key, or at the first larger one. -/
def findEntry (page : Page) (key : List UInt8) : List ℕ → Result (Option ℕ)
  | [] => pure none
  | i :: idxs => do
      match ← decodeLeafEntry page i page.numRows with
      | some k =>
          if k = key then pure (some i)
          else if key < k then pure none
          else findEntry page key idxs
      | none => findEntry page key idxs

/-! ## Writing -/

namespace IndexTreeWriter

variable [Crc32Fast]

def create : StateResult WriteGuard ℕ := createTree

def insertIntoLeaf (key : List UInt8) (pageNo : ℕ) (page : Page) :
    StateResult WriteGuard (InsertResult (List UInt8)) := do
  let pos ← findIdxInsertionPoint page key
  if neededSize page (2 + key.length) ≤ pageSize then do
    insertInPlace pageNo page pos (encodeEntry key)
    pure .fit
  else
    splitLeaf pageNo page pos (encodeEntry key) ((page.numRows + 1) / 2)
      (extractKeyAtVirtualPos page page.numRows pos key ((page.numRows + 1) / 2))

/-- Insert a key; the result is the (possibly new) root. -/
def insert (root : ℕ) (key : List UInt8) : StateResult WriteGuard ℕ := do
  let result ← insertRecursive idxBranch
    "index B+ tree depth exceeds maximum in insert_recursive" key (insertIntoLeaf key)
    maxTreeDepth root
  growRoot idxBranch root result

/-- Delete a key; says whether it was there. -/
def delete (root : ℕ) (key : List UInt8) : StateResult WriteGuard Bool := do
  let (pageNo, page) ← readOnly fun guard => descend
    "index B+ tree depth exceeds maximum in delete_recursive" guard.view (routeKey idxBranch key)
    maxTreeDepth root
  if page.numRows = 0 then pure false
  else
    match ← findEntry page key (List.range page.numRows) with
    | some pos => do
        removeInPlace pageNo page pos
        pure true
    | none => pure false

end IndexTreeWriter

/-! ## Reading -/

namespace IndexTreeReader

/-- The scan of one leaf for keys that start with `prefix`: the accumulator holds
what was found and whether the run of matching keys has begun; the scan stops
where the run ends, or when `full` says so. -/
def scanLeaf {α : Type} (pre : List UInt8) (push : α → List UInt8 → α) (full : α → Bool)
    (page : Page) : List ℕ → α × Bool → Result ((α × Bool) × Bool)
  | [], acc => pure (acc, false)
  | i :: idxs, (acc, foundStart) => do
      match ← decodeLeafEntry page i page.numRows with
      | some k =>
          if pre.isPrefixOf k then
            let acc := push acc k
            if full acc then pure ((acc, true), true)
            else scanLeaf pre push full page idxs (acc, true)
          else if foundStart then pure ((acc, foundStart), true)
          else scanLeaf pre push full page idxs (acc, foundStart)
      | none => scanLeaf pre push full page idxs (acc, foundStart)

variable [Crc32Fast]

def findLeafForKey (file : PageFile) (root : ℕ) (key : List UInt8) : Result ℕ := do
  let (leaf, _) ← descend "index B+ tree depth exceeds maximum in find_leaf_for_key" file.readPage
    (routeKey idxBranch key) maxTreeDepth root
  pure leaf

/-- The prefix scans, which differ in what they do with a matching key and in
their error text. -/
def scanWith {α : Type} (cycleError : String) (push : α → List UInt8 → α) (full : α → Bool)
    (init : α) (file : PageFile) (root : ℕ) (pre : List UInt8) : Result α := do
  let firstLeaf ← findLeafForKey file root pre
  let (acc, _) ← walkLeaves cycleError file.readPage
    (fun page acc => scanLeaf pre push full page (List.range page.numRows) acc) file.pageCount
    firstLeaf (init, false)
  pure acc

/-- All keys that start with the prefix, in sorted order. -/
def scanPrefix (file : PageFile) (root : ℕ) (pre : List UInt8) : Result (List (List UInt8)) :=
  scanWith "index leaf chain cycle detected in scan_prefix" (fun acc k => acc ++ [k])
    (fun _ => false) [] file root pre

/-- The number of keys that start with the prefix. -/
def countPrefix (file : PageFile) (root : ℕ) (pre : List UInt8) : Result ℕ :=
  scanWith "index leaf chain cycle detected in count_prefix" (fun count _ => count + 1)
    (fun _ => false) 0 file root pre

/-- `scan_prefix` that stops once it has `max` keys. -/
def scanPrefixLimit (file : PageFile) (root : ℕ) (pre : List UInt8) (max : ℕ) :
    Result (List (List UInt8)) :=
  scanWith "index leaf chain cycle detected in scan_prefix_limit" (fun acc k => acc ++ [k])
    (fun acc => max ≤ acc.length) [] file root pre

end IndexTreeReader

end BoogyDb
