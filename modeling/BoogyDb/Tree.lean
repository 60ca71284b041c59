import BoogyDb.BranchPage
import BoogyDb.LeafWriters

/-!
# What the two B+ trees share

The table tree (`btree.rs`) and the index tree (`index.rs`) repeat the same code
over two branch formats: descending to a leaf, inserting into a branch and
splitting it, splitting a leaf, growing a root, and walking the leaf chain.
Each of these is written once here, with the trees' own error texts, leaf code
and separators as parameters; `BTree` and `Index` instantiate them under the
source's names.
-/

namespace BoogyDb

open Bytes WriteGuard

/-- What an insertion into a subtree reports to the branch above it. -/
inductive InsertResult (κ : Type)
  | fit
  | split (newPage : ℕ) (separator : κ)
deriving DecidableEq

def maxTreeDepth : ℕ := 64

/-! ## Descending -/

/-- Follow `route` from `pageNo` down to a leaf, through at most `fuel` pages. -/
def descend (depthError : String) (read : ℕ → Result Page) (route : Page → Result ℕ) :
    ℕ → ℕ → Result (ℕ × Page)
  | 0, _ => fail (.corruption depthError)
  | fuel + 1, pageNo => do
      let page ← read pageNo
      if page.isLeaf then pure (pageNo, page)
      else
        let child ← route page
        descend depthError read route fuel child

section

variable {κ : Type} [LinearOrder κ] (fmt : BranchFormat κ)

/-- The child page `find_child` routes `key` to. -/
def routeKey (key : κ) (page : Page) : Result ℕ := do
  let (_, child) ← fmt.findChild page key
  pure child

/-- Down the leftmost children. -/
def routeFirst (page : Page) : Result ℕ := fmt.getBranchChild page 0

end

/-! ## Inserting -/

/-- The bytes of the rows on a page, from its offsets alone. -/
def existingDataSize (page : Page) : ℕ :=
  let offsetArrayStart := pageHeaderSize + page.numRows * 2
  let currentFree := page.freeSpaceOffset
  if currentFree > offsetArrayStart then currentFree - offsetArrayStart else 0

/-- The page size a leaf needs to take one more row of `len` bytes. -/
def neededSize (page : Page) (len : ℕ) : ℕ :=
  pageHeaderSize + (page.numRows + 1) * 2 + existingDataSize page + len + checksumSize

section

variable [Crc32Fast]

/-- Write `row` at position `pos` of a leaf that has room for it. -/
def insertInPlace (pageNo : ℕ) (snapshot : Page) (pos : ℕ) (row : List UInt8) :
    StateResult WriteGuard Unit :=
  modifyPage pageNo fun page => do
    let page ← writeLeafWithInsert page snapshot snapshot.numRows pos row
    pure page.updateChecksum

/-- Remove the row at position `pos` of a leaf. -/
def removeInPlace (pageNo : ℕ) (snapshot : Page) (pos : ℕ) : StateResult WriteGuard Unit :=
  modifyPage pageNo fun page => do
    let page ← writeLeafWithout page snapshot snapshot.numRows pos
    pure ((page.setNextLeaf snapshot.nextLeaf).setPrevLeaf snapshot.prevLeaf).updateChecksum

/-- Fix up the back pointer of the leaf behind a new one. -/
def linkBack (nextLeaf newPageNo : ℕ) : StateResult WriteGuard Unit :=
  if nextLeaf ≠ 0 then
    modifyPage nextLeaf fun page => pure (page.setPrevLeaf newPageNo).updateChecksum
  else pure ()

/-- Split a leaf, with `row` inserted at `pos`, before position `mid`: the left
half stays, the right half goes to a new page behind it in the chain. -/
def splitLeaf {κ : Type} (pageNo : ℕ) (snapshot : Page) (pos : ℕ) (row : List UInt8) (mid : ℕ)
    (separator : Result κ) : StateResult WriteGuard (InsertResult κ) := do
  let numRows := snapshot.numRows
  let nextLeaf := snapshot.nextLeaf
  let prevLeaf := snapshot.prevLeaf
  let total := numRows + 1
  let newPageNo ← allocatePage
  let separator ← separator
  modifyPage pageNo fun page => do
    let page ← writeLeafRange page snapshot numRows pos row 0 mid
    pure ((page.setNextLeaf newPageNo).setPrevLeaf prevLeaf).updateChecksum
  let rightPage ← writeLeafRange Page.newLeaf snapshot numRows pos row mid total
  putPage newPageNo ((rightPage.setPrevLeaf pageNo).setNextLeaf nextLeaf).updateChecksum
  linkBack nextLeaf newPageNo
  pure (.split newPageNo separator)

section

variable {κ : Type} (fmt : BranchFormat κ)

def insertIntoBranch (pageNo childIdx : ℕ) (separator : κ) (newChild : ℕ) :
    StateResult WriteGuard (InsertResult κ) := do
  let page ← readPage pageNo
  if page.numRows < fmt.maxKeys then
    modifyPage pageNo fun page => do
      let page ← fmt.insertBranchEntry page childIdx separator newChild
      pure page.updateChecksum
    pure .fit
  else
    let (children, keys) ← fmt.collectBranchFlat page
    let newKeys ← BranchFormat.vecInsert keys childIdx separator
    let newChildren ← BranchFormat.vecInsert children (childIdx + 1) newChild
    let mid := newKeys.length / 2
    let splitKey ← BranchFormat.index newKeys mid
    modifyPage pageNo fun page => do
      let page ← fmt.rebuildBranchFlat page (newChildren.take (mid + 1)) (newKeys.take mid)
      pure page.updateChecksum
    let newPageNo ← allocatePage
    let newPage ← fmt.rebuildBranchFlat Page.newBranch (newChildren.drop (mid + 1))
      (newKeys.drop (mid + 1))
    putPage newPageNo newPage.updateChecksum
    pure (.split newPageNo splitKey)

section

variable [LinearOrder κ]

/-- `insert_recursive`, `fuel` levels above its depth limit; `intoLeaf` is the
tree's own insertion into a leaf. -/
def insertRecursive (depthError : String) (key : κ)
    (intoLeaf : ℕ → Page → StateResult WriteGuard (InsertResult κ)) :
    ℕ → ℕ → StateResult WriteGuard (InsertResult κ)
  | 0, _ => throw (.error (.corruption depthError))
  | fuel + 1, pageNo => do
      let page ← readPage pageNo
      if page.isLeaf then intoLeaf pageNo page
      else
        let (childIdx, child) ← fmt.findChild page key
        match ← insertRecursive depthError key intoLeaf fuel child with
        | .fit => pure .fit
        | .split newPage separator => insertIntoBranch fmt pageNo childIdx separator newPage

end

/-- A root that was split gets a new root above the halves. -/
def growRoot (root : ℕ) : InsertResult κ → StateResult WriteGuard ℕ
  | .fit => pure root
  | .split newPage separator => do
      let newRoot ← allocatePage
      let rootPage ← fmt.writeBranchEntry Page.newBranch 0 root separator
      let rootPage ← fmt.setBranchChild rootPage 1 newPage
      putPage newRoot (rootPage.setNumRows 1).updateChecksum
      pure newRoot

end

/-- A new empty tree: one empty leaf. -/
def createTree : StateResult WriteGuard ℕ := do
  let pageNo ← allocatePage
  putPage pageNo Page.newLeaf
  pure pageNo

end

/-! ## Walking the leaf chain -/

/-- A step over the rows of a leaf; rows of no bytes are passed over. -/
def forRows {α : Type} (page : Page) (step : α → ℕ → List UInt8 → Result α) (init : α) :
    Result α :=
  (List.range page.numRows).foldlM (fun acc i => do
    let (start, stop) ← rowBounds page i page.numRows
    if start < stop ∧ stop ≤ pageSize then do
      let data ← bytesOf page.data start stop
      step acc i data
    else pure acc) init

/-- Visit the leaves from `current` on, at most `fuel` of them; `visit` also says
whether to stop. -/
def walkLeaves {α : Type} (cycleError : String) (read : ℕ → Result Page)
    (visit : Page → α → Result (α × Bool)) : ℕ → ℕ → α → Result α
  | 0, _, _ => fail (.corruption cycleError)
  | fuel + 1, current, acc => do
      let page ← read current
      let (acc, stop) ← visit page acc
      if stop ∨ page.nextLeaf = 0 then pure acc
      else walkLeaves cycleError read visit fuel page.nextLeaf acc

/-- Visit the leaves from `current` on and rewrite them on the way; the chain
pointer that is followed is the one found before the rewrite. -/
def rewriteLeaves [Crc32Fast] {α : Type} (cycleError : String)
    (visit : ℕ → Page → α → StateResult WriteGuard α) : ℕ → ℕ → α → StateResult WriteGuard α
  | 0, _, _ => throw (.error (.corruption cycleError))
  | fuel + 1, current, acc => do
      let page ← readPage current
      let acc ← visit current page acc
      if page.nextLeaf = 0 then pure acc
      else rewriteLeaves cycleError visit fuel page.nextLeaf acc

/-- `page_count() + new_page_count()`, the most leaves a chain can have. -/
def maxPages (guard : WriteGuard) : Result ℕ :=
  if pageNoLimit ≤ guard.bound then overflowed else .ok guard.bound

end BoogyDb
