import BoogyDb.IndexKey
import BoogyDb.IndexSet
import BoogyDb.SplitSafety

/-!
# Splits over the runs of an index tree

An index leaf is split at half its entry count, whatever its keys weigh, and a key that
fits no page is not refused.  As for the table tree, the pages of an index tree stay
pages in every run whose insertions find room (`InsertFits`), and the next insertion is
safe exactly when it finds room too (`index_insert_safe_iff`).  Nothing is asked of the
keys: they may be there already, and a split may lose some of them to a search.
-/

namespace BoogyDb

open Bytes BinarySearch Wp WriteGuard

section

variable [Crc32Fast]

/-- The pages below `root` are the pages of an index tree. -/
def IdxTreeAt (g : WriteGuard) (root : ℕ) : Prop :=
  ∃ height h, WellShaped idxBranch g height none ∧ height root = some h

/-- The pages below `root`. -/
inductive PageBelow (g : WriteGuard) (root : ℕ) : ℕ → Prop
  | root : PageBelow g root root
  | child {p i c : ℕ} {page : Page} : PageBelow g root p → g.view p = .ok page →
      ¬ page.isLeaf → i ≤ page.numRows → idxBranch.getBranchChild page i = .ok c →
      PageBelow g root c

/-- The entries of the page end before the checksum. -/
def WithinPage (page : Page) : Prop :=
  if page.isLeaf then page.freeSpaceOffset ≤ pageSize - checksumSize
  else pageHeaderSize + page.numRows * idxBranch.entrySize + 4 ≤ pageSize - checksumSize

/-- The key is the one that its entry says: the stored length is the length of the key. -/
def StoresLength (key : List UInt8) : Prop := readLe (encodeEntry key) 0 2 = key.length

/-! ## Searching in a leaf -/

section

variable {rows : List (List UInt8)} {key : List UInt8} {next prev pos : ℕ}

/-- A broken entry is not read, and no entry is read out of range. -/
theorem decodeLeafEntry_ok (hfits : Fits rows) {i : ℕ} (hi : i < rows.length) :
    ∃ entry, decodeLeafEntry (leafPage rows next prev) i rows.length = .ok entry := by
  have hend := rowEnd_le hfits hi
  have hbounds := @rowBounds_leafPage _ rows next prev i hfits hi
  unfold decodeLeafEntry
  rw [hbounds, ok_bind]
  dsimp only
  split
  · exact ⟨none, rfl⟩
  · rename_i hrange
    rw [not_or, Nat.not_lt, Nat.not_lt] at hrange
    have hsize : (leafPage rows next prev).data.length = pageSize := Page.size _
    rw [readU16_ok (by omega), ok_bind]
    split
    · exact ⟨none, rfl⟩
    · rename_i hkey
      rw [bytesOf_ok (Nat.le_add_right _ _) (by omega)]
      exact ⟨_, rfl⟩

theorem findIdxInsertionPoint_ok (hfits : Fits rows) :
    ∃ pos, findIdxInsertionPoint (leafPage rows next prev) key = .ok pos ∧ pos ≤ rows.length := by
  unfold findIdxInsertionPoint
  rw [numRows_leafPage hfits]
  split
  · exact ⟨0, rfl, Nat.zero_le _⟩
  · cases hsearch : bsearch (probeEntry (leafPage rows next prev) key) 0 rows.length with
    | ok res => exact ⟨res.1, rfl, (bsearch_bounds (Nat.zero_le _) hsearch).2.1⟩
    | error e =>
        obtain ⟨i, -, hi, hprobe⟩ := bsearch_error hsearch
        obtain ⟨entry, hentry⟩ := @decodeLeafEntry_ok _ rows next prev hfits i hi
        unfold probeEntry at hprobe
        rw [numRows_leafPage hfits, hentry, ok_bind] at hprobe
        cases entry with
        | none => cases hprobe
        | some k => cases hprobe

theorem extractKeyAtVirtualPos_ok (hfits : Fits rows) {i : ℕ} (hpos : pos ≤ rows.length)
    (hi : i ≤ rows.length) :
    ∃ k, extractKeyAtVirtualPos (leafPage rows next prev) rows.length pos key i = .ok k := by
  unfold extractKeyAtVirtualPos
  split
  · exact ⟨key, rfl⟩
  · have hlt : (if i < pos then i else i - 1) < rows.length := by
      split
      · omega
      · omega
    obtain ⟨entry, hentry⟩ := @decodeLeafEntry_ok _ rows next prev hfits _ hlt
    rw [hentry]
    exact ⟨_, rfl⟩

theorem findEntry_ok (hfits : Fits rows) {idxs : List ℕ} (hidxs : ∀ i ∈ idxs, i < rows.length) :
    ∃ found, findEntry (leafPage rows next prev) key idxs = .ok found ∧
      ∀ pos, found = some pos → pos < rows.length := by
  induction idxs with
  | nil => exact ⟨none, rfl, by simp⟩
  | cons i idxs ih =>
      rw [List.forall_mem_cons] at hidxs
      obtain ⟨entry, hentry⟩ := @decodeLeafEntry_ok _ rows next prev hfits i hidxs.1
      unfold findEntry
      rw [numRows_leafPage hfits, hentry, ok_bind]
      cases entry with
      | none => exact ih hidxs.2
      | some k =>
          dsimp only
          split
          · exact ⟨some i, rfl, fun pos hpos => Option.some.inj hpos ▸ hidxs.1⟩
          · split
            · exact ⟨none, rfl, by simp⟩
            · exact ih hidxs.2

/-- Room for the entry of a key. -/
theorem idxSplitRoom_leafPage (hfits : Fits rows) (hpos : pos ≤ rows.length) :
    SplitRoom (leafPage rows next prev) pos (2 + key.length) ↔
      HalvesFit (leafPage rows next prev) pos (encodeEntry key) := by
  rw [← length_encodeEntry, splitRoom_leafPage hfits hpos, halvesFit_leafPage hfits hpos]

/-- An entry that a leaf takes, in place or in a half, stores the length of its key. -/
theorem storesLength_of_room (hfits : Fits rows) (hpos : pos ≤ rows.length)
    (hroom : NeedsSplit (leafPage rows next prev) key →
      HalvesFit (leafPage rows next prev) pos (encodeEntry key)) : StoresLength key := by
  have hlt : key.length < 256 ^ 2 := by
    by_cases hneeds : NeedsSplit (leafPage rows next prev) key
    · have hhalves := (halvesFit_leafPage hfits hpos).mp (hroom hneeds)
      have hsum := @usedSize_halves rows (encodeEntry key) pos ((rows.length + 1) / 2) hpos
      have hleft : usedSize _ ≤ 4092 := hhalves.1
      have hright : usedSize _ ≤ 4092 := hhalves.2
      rw [length_encodeEntry] at hsum
      omega
    · have hsize : neededSize (leafPage rows next prev) (2 + key.length) ≤ pageSize :=
        Nat.le_of_not_lt hneeds
      rw [neededSize] at hsize
      simp only [pageSize] at hsize
      omega
  unfold StoresLength
  have hbytes : encodeEntry key = [] ++ (leBytes 2 key.length ++ key) := rfl
  exact readLe_eq_of_append hbytes rfl hlt

end

/-! ## The operations keep the shape -/

section

variable {height : ℕ → Option ℕ} {g : WriteGuard} {pageNo root h : ℕ} {page : Page}
  {key : List UInt8}

theorem wp_insertIntoLeaf_idxShaped (hI : WellShaped idxBranch g height none)
    (hp : height pageNo = some 0) (hview : g.view pageNo = .ok page)
    (hroom : NeedsSplit page key → ∀ pos, findIdxInsertionPoint page key = .ok pos →
      SplitRoom page pos (2 + key.length)) :
    wp (IndexTreeWriter.insertIntoLeaf key pageNo page) (SplitsAt idxBranch 0 g height)
      (FailsSafely idxBranch 0 g height) g := by
  obtain ⟨rows, next, prev, hview', hfits, hnext, hprev, hleaf⟩ := hI.leaf hp
  obtain rfl : page = leafPage rows next prev := Except.ok.inj (hview.symm.trans hview')
  obtain ⟨pos, hfind, hpos⟩ := @findIdxInsertionPoint_ok _ rows key next prev hfits
  rw [IndexTreeWriter.insertIntoLeaf, wp_bind, wp_lift_ok hfind, ← length_encodeEntry]
  refine wp_ite (fun hsize => ?_) fun hsize => ?_
  · rw [wp_bind]
    refine (wp_insertInPlace_shaped hI hp hfits hpos ((neededSize_leafPage hfits hpos).mp hsize)
      hnext hprev hleaf).post fun _ g' hr => ?_
    exact ⟨height, hr, fun _ _ heq => by cases heq⟩
  · have hneeds : NeedsSplit (leafPage rows next prev) key := by
      rw [NeedsSplit, ← length_encodeEntry]
      exact Nat.lt_of_not_le hsize
    have hhalves := hroom hneeds pos hfind
    rw [← length_encodeEntry, splitRoom_leafPage hfits hpos] at hhalves
    obtain ⟨sep, hsep⟩ := @extractKeyAtVirtualPos_ok _ rows key next prev pos hfits
      ((rows.length + 1) / 2) hpos (by
        have hne : 0 < rows.length := by
          by_contra hzero
          have hnil : rows = [] := List.eq_nil_of_length_eq_zero (Nat.eq_zero_of_not_pos hzero)
          subst hnil
          apply hsize
          rw [neededSize_leafPage hfits hpos]
          rw [Nat.le_zero.mp hpos] at hhalves ⊢
          exact hhalves.2
        omega)
    rw [numRows_leafPage hfits]
    refine wp_splitLeaf_shaped hI hp hfits hpos (by omega) hhalves.1 hhalves.2 hnext hprev hleaf ?_
    rw [hsep]
    simp

theorem Reshapes.idxTreeAt {g' : WriteGuard} {height' : ℕ → Option ℕ} {k : ℕ}
    (hr : Reshapes idxBranch k g height g' height') (hroot : height root = some h) :
    IdxTreeAt g' root := ⟨height', h, hr.shaped, hr.extends _ _ hroot⟩

theorem wp_create_idx :
    wp IndexTreeWriter.create (fun root g' => IdxTreeAt g' root) (fun _ _ => True) g := by
  rw [IndexTreeWriter.create, createTree, wp_bind]
  refine wp_allocatePage (fun g₁ halloc => ?_) fun _ _ _ => trivial
  rw [wp_bind, newLeaf_eq_leafPage]
  refine wp_putPage fun g₂ hputs => ?_
  have hempty : WellShaped idxBranch g (fun _ => none) none :=
    ⟨fun _ _ hq => absurd hq (by simp), fun _ _ hq => absurd hq (by simp)⟩
  have hnew : Function.update (fun _ => none) g.bound (some 0) g.bound = some 0 :=
    Function.update_self ..
  exact ⟨_, 0, (hempty.take halloc 0).fill hputs hnew
    ⟨[], 0, 0, rfl, by decide, by decide, by decide, fun hne => absurd rfl hne⟩, hnew⟩

/-- A descent in an index tree. -/
theorem IdxTreeAt.descend {depthError : String} (ht : IdxTreeAt g root) :
    (∃ leaf rows next prev, BoogyDb.descend depthError g.view (routeKey idxBranch key) maxTreeDepth root =
        .ok (leaf, leafPage rows next prev) ∧ Fits rows) ∨
      ∃ e, BoogyDb.descend depthError g.view (routeKey idxBranch key) maxTreeDepth root =
        .error (.error e) := by
  obtain ⟨height, h, hI, hroot⟩ := ht
  rcases @descend_shaped _ _ idxBranch height g root h depthError (routeKey idxBranch key)
    maxTreeDepth hI hroot (fun children keys hfits => ⟨_, List.getElem_mem _,
      routeKey_branchPage hfits key⟩) with ⟨leaf, page, hok, hleaf₀, hview⟩ | ⟨e, he⟩
  · obtain ⟨rows, next, prev, hview', hfits, -⟩ := hI.leaf hleaf₀
    obtain rfl : page = leafPage rows next prev := Except.ok.inj (hview.symm.trans hview')
    exact Or.inl ⟨leaf, rows, next, prev, hok, hfits⟩
  · exact Or.inr ⟨e, he⟩

/-- **An insertion that finds room does not panic and keeps the tree.** -/
theorem wp_insert_idx (ht : IdxTreeAt g root) (hroom : InsertFits g root key) :
    wp (IndexTreeWriter.insert root key) (fun root' g' => IdxTreeAt g' root')
      (fun e g' => e ≠ .panic ∧ IdxTreeAt g' root) g := by
  obtain ⟨height, h, hI, hroot⟩ := ht
  have hfail : ∀ e g', FailsSafely idxBranch h g height e g' →
      e ≠ .panic ∧ IdxTreeAt g' root := by
    rintro e g' ⟨he, height', hr⟩
    exact ⟨he, hr.idxTreeAt hroot⟩
  have hrec := @wp_insertRecursive_shaped _ idxBranch _ height g root h _
    "index B+ tree depth exceeds maximum in insert_recursive" key
    (IndexTreeWriter.insertIntoLeaf key) maxTreeDepth hI hroot fun pageNo page hp hdescend => by
      have hreached : reachedIdxLeaf g root key = .ok (pageNo, page) := hdescend
      rcases @descend_shaped _ _ idxBranch height g root h
        "index B+ tree depth exceeds maximum in insert_recursive" (routeKey idxBranch key)
        maxTreeDepth hI hroot (fun children keys hfits => ⟨_, List.getElem_mem _,
          routeKey_branchPage hfits key⟩) with ⟨leaf, page', hok, -, hview⟩ | ⟨e, he⟩
      · obtain ⟨rfl, rfl⟩ := Prod.mk.inj (Except.ok.inj (hok.symm.trans hdescend))
        exact wp_insertIntoLeaf_idxShaped hI hp hview fun hneeds pos hfind =>
          hroom leaf page' pos hreached hneeds hfind
      · rw [he] at hdescend
        cases hdescend
  rw [IndexTreeWriter.insert, wp_bind]
  refine hrec.mono ?_ hfail
  rintro r g₁ ⟨height₁, hr₁, hnew⟩
  have hroot₁ := hr₁.extends _ _ hroot
  refine (wp_growRoot_shaped hr₁.shaped hroot₁ hnew (by decide)).mono ?_ ?_
  · rintro root' g₂ ⟨height₂, _, hI₂, h', hroot'⟩
    exact ⟨height₂, h', hI₂, hroot'⟩
  · intro e g₂ hf
    exact hfail e g₂ (.trans hr₁ hf)

theorem wp_delete_idx (ht : IdxTreeAt g root) :
    wp (IndexTreeWriter.delete root key) (fun _ g' => IdxTreeAt g' root)
      (fun _ g' => IdxTreeAt g' root) g := by
  obtain ⟨height, h, hI, hroot⟩ := ht
  have hstay : IdxTreeAt g root := ⟨height, h, hI, hroot⟩
  rw [IndexTreeWriter.delete, wp_bind, wp_readOnly]
  rcases @descend_shaped _ _ idxBranch height g root h
    "index B+ tree depth exceeds maximum in delete_recursive" (routeKey idxBranch key) maxTreeDepth
    hI hroot (fun children keys hfits => ⟨_, List.getElem_mem _,
      routeKey_branchPage hfits key⟩) with ⟨leaf, page, hok, hleaf₀, hview⟩ | ⟨e, he⟩
  · obtain ⟨rows, next, prev, hview', hfits, hnext, hprev, hleaf⟩ := hI.leaf hleaf₀
    obtain rfl : page = leafPage rows next prev := Except.ok.inj (hview.symm.trans hview')
    rw [hok]
    dsimp only
    refine wp_ite (fun _ => hstay) fun _ => ?_
    obtain ⟨found, hfind, hbound⟩ := @findEntry_ok _ rows key next prev hfits
      (List.range rows.length) fun i hi => List.mem_range.mp hi
    rw [numRows_leafPage hfits, wp_bind, wp_lift_ok hfind]
    cases found with
    | none => exact hstay
    | some pos =>
        dsimp only
        rw [wp_bind]
        refine (wp_removeInPlace_shaped hI hleaf₀ hfits (hbound pos rfl) hnext hprev hleaf).mono
          (fun _ g' hr => hr.idxTreeAt hroot) ?_
        rintro e g' ⟨-, height', hr⟩
        exact hr.idxTreeAt hroot
  · rw [he]
    exact hstay

theorem IdxTreeAt.commit {file : PageFile} {afterImages : List (ℕ × Page)} (ht : IdxTreeAt g root)
    (hcommit : g.commit = .ok (afterImages, file)) : IdxTreeAt file root := by
  obtain ⟨height, h, hI, hroot⟩ := ht
  refine ⟨height, h, ⟨fun p k hp hne => ?_, fun p k hp => ?_⟩, hroot⟩
  · obtain ⟨page, hview, hpage⟩ := hI.page p k hp hne
    exact ⟨page, commit_view hcommit (hI.below p k hp).1 hview, hpage⟩
  · rw [commit_bound hcommit]
    exact hI.below p k hp

/-- Every page of the tree is a page, and its entries end before the checksum. -/
theorem IdxTreeAt.withinPage (ht : IdxTreeAt g root) {p : ℕ} (hp : PageBelow g root p) :
    ∃ page, g.view p = .ok page ∧ WithinPage page := by
  obtain ⟨height, h, hI, hroot⟩ := ht
  have hheight : ∃ k, height p = some k := by
    induction hp with
    | root => exact ⟨h, hroot⟩
    | @child p i c page hp hview hbranch hi hchild ih =>
        obtain ⟨k, hk⟩ := ih
        cases k with
        | zero =>
            obtain ⟨rows, next, prev, hview', -⟩ := hI.leaf hk
            obtain rfl := Except.ok.inj (hview.symm.trans hview')
            exact absurd isLeaf_leafPage hbranch
        | succ k =>
            obtain ⟨children, keys, hview', hfits, hchildren⟩ := hI.branch hk
            obtain rfl := Except.ok.inj (hview.symm.trans hview')
            rw [BranchFormat.numRows_branchPage hfits] at hi
            rw [BranchFormat.getBranchChild_branchPage hfits hi] at hchild
            obtain rfl := Except.ok.inj hchild
            exact ⟨k, hchildren _ (List.getElem_mem _)⟩
  obtain ⟨k, hk⟩ := hheight
  cases k with
  | zero =>
      obtain ⟨rows, next, prev, hview, hfits, -⟩ := hI.leaf hk
      refine ⟨_, hview, ?_⟩
      rw [WithinPage, if_pos isLeaf_leafPage, freeSpaceOffset_leafPage hfits]
      exact hfits
  | succ k =>
      obtain ⟨children, keys, hview, hfits, -⟩ := hI.branch hk
      refine ⟨_, hview, ?_⟩
      have hle : keys.length ≤ idxBranch.maxKeys := hfits.length_le
      have hmax : idxBranch.maxKeys = 96 := by decide
      have hsize : idxBranch.entrySize = 42 := by decide
      rw [WithinPage, if_neg not_isLeaf_branchPage, BranchFormat.numRows_branchPage hfits, hsize]
      simp only [pageHeaderSize, pageSize, checksumSize]
      omega

end

/-! ## Runs -/

/-- The roots and states of an index tree that was created in `g₀`; every insertion met
the condition `room`. -/
inductive IdxReached (room : WriteGuard → ℕ → List UInt8 → Prop) (g₀ : WriteGuard) :
    ℕ → WriteGuard → Prop
  | create {root : ℕ} {g : WriteGuard} (h : IndexTreeWriter.create g₀ = .ok root g) :
      IdxReached room g₀ root g
  | insert {root root' : ℕ} {g g' : WriteGuard} {key : List UInt8}
      (hreached : IdxReached room g₀ root g) (hroom : room g root key)
      (h : IndexTreeWriter.insert root key g = .ok root' g') : IdxReached room g₀ root' g'
  | insertFailed {root : ℕ} {g g' : WriteGuard} {key : List UInt8} {e : Fault}
      (hreached : IdxReached room g₀ root g) (hroom : room g root key)
      (h : IndexTreeWriter.insert root key g = .error e g') : IdxReached room g₀ root g'
  | delete {root : ℕ} {g g' : WriteGuard} {key : List UInt8}
      (hreached : IdxReached room g₀ root g)
      (h : Leaves (IndexTreeWriter.delete root key) g g') : IdxReached room g₀ root g'
  | commit {root : ℕ} {g file : WriteGuard} {afterImages : List (ℕ × Page)}
      (hreached : IdxReached room g₀ root g) (h : g.commit = .ok (afterImages, file)) :
      IdxReached room g₀ root file

/-- **Every state of a run whose insertions find room is a tree of pages.** -/
theorem IdxReached.treeAt {g₀ g : WriteGuard} {root : ℕ} (h : IdxReached InsertFits g₀ root g) :
    IdxTreeAt g root := by
  induction h with
  | create h => exact wp_create_idx.ok h
  | insert _ hroom h ih => exact (wp_insert_idx ih hroom).ok h
  | insertFailed _ hroom h ih => exact ((wp_insert_idx ih hroom).error h).2
  | delete _ h ih =>
      rcases h with ⟨a, hok⟩ | ⟨e, -, herr⟩
      · exact (wp_delete_idx ih).ok hok
      · exact (wp_delete_idx ih).error herr
  | commit _ h ih => exact ih.commit h

/-- An insertion is safe: it does not panic, the entry that the leaf gets stores the length
of its key, both halves of a leaf that is split stay clear of the checksum, and so does
every page of the tree that it leaves. -/
structure IndexInsertSafe (g : WriteGuard) (root : ℕ) (key : List UInt8) : Prop where
  no_panic : ¬ Panics (IndexTreeWriter.insert root key) g
  entry : ∀ pageNo page pos, reachedIdxLeaf g root key = .ok (pageNo, page) →
    findIdxInsertionPoint page key = .ok pos →
      StoresLength key ∧ (NeedsSplit page key → HalvesFit page pos (encodeEntry key))
  pages : ∀ root' g', IndexTreeWriter.insert root key g = .ok root' g' → ∀ p,
    PageBelow g' root' p → ∃ page, g'.view p = .ok page ∧ WithinPage page

/-- The key has the encoding of the values of a row. -/
def IsIndexKey (key : List UInt8) : Prop :=
  ∃ vals rowid, encodeCompositeIndexKey vals rowid = some key

/-- Insertions of encoded keys are safe, after any run of these. -/
def IndexInsertsAlwaysSafe : Prop :=
  ∀ (g₀ g : WriteGuard) (root : ℕ) (key : List UInt8),
    IdxReached (fun _ _ key => IsIndexKey key) g₀ root g → IsIndexKey key →
      IndexInsertSafe g root key

/-- **Index insertions.**  In every run whose insertions find room, an insertion is safe
exactly when it finds room: when the leaf it reaches takes the key, or both halves at half
its entry count do. -/
theorem index_insert_safe_iff {g₀ g : WriteGuard} {root : ℕ} (h : IdxReached InsertFits g₀ root g)
    (key : List UInt8) : IndexInsertSafe g root key ↔ InsertFits g root key := by
  have ht := h.treeAt
  constructor
  · intro hsafe pageNo page pos hreached hneeds hfind
    rcases @IdxTreeAt.descend _ g root key
      "index B+ tree depth exceeds maximum in insert_recursive" ht with
      ⟨leaf, rows, next, prev, hok, hfits⟩ | ⟨e, he⟩
    · obtain ⟨rfl, rfl⟩ := Prod.mk.inj (Except.ok.inj (hok.symm.trans hreached))
      obtain ⟨pos', hfind', hpos⟩ := @findIdxInsertionPoint_ok _ rows key next prev hfits
      obtain rfl := Except.ok.inj (hfind'.symm.trans hfind)
      exact (idxSplitRoom_leafPage hfits hpos).mpr
        ((hsafe.entry _ _ _ hreached hfind).2 hneeds)
    · rw [reachedIdxLeaf, he] at hreached
      cases hreached
  · intro hroom
    refine ⟨not_panics_of_wp ((wp_insert_idx ht hroom).mono (fun _ _ => id)
      fun e g' he => he.1), ?_, ?_⟩
    · intro pageNo page pos hreached hfind
      rcases @IdxTreeAt.descend _ g root key
        "index B+ tree depth exceeds maximum in insert_recursive" ht with
        ⟨leaf, rows, next, prev, hok, hfits⟩ | ⟨e, he⟩
      · obtain ⟨rfl, rfl⟩ := Prod.mk.inj (Except.ok.inj (hok.symm.trans hreached))
        obtain ⟨pos', hfind', hpos⟩ := @findIdxInsertionPoint_ok _ rows key next prev hfits
        obtain rfl := Except.ok.inj (hfind'.symm.trans hfind)
        have hhalves : NeedsSplit (leafPage rows next prev) key →
            HalvesFit (leafPage rows next prev) pos' (encodeEntry key) := fun hneeds =>
          (idxSplitRoom_leafPage hfits hpos).mp (hroom _ _ _ hreached hneeds hfind)
        exact ⟨storesLength_of_room hfits hpos hhalves, hhalves⟩
      · rw [reachedIdxLeaf, he] at hreached
        cases hreached
    · intro root' g' hok p hp
      exact IdxTreeAt.withinPage ((wp_insert_idx ht hroom).ok hok) hp

/-! ## A key that fits no page -/

/-- The key of a row whose text has 5000 bytes. -/
def longKey : List UInt8 := encodeTextPrefix (longText 5000) ++ [] ++ toBeBytes 1

omit [Crc32Fast] in
theorem isIndexKey_longKey : IsIndexKey longKey := ⟨[(.text, .text (longText 5000))], 1, rfl⟩

omit [Crc32Fast] in
theorem length_longKey : longKey.length = 5009 := by
  rw [longKey, encodeTextPrefix, toBeBytes, List.length_append, List.length_append,
    List.length_append, length_longText, length_beBytes]
  rfl

end

/-- **Index insertions are not always safe.** -/
theorem not_index_inserts_safe : ¬ @IndexInsertsAlwaysSafe crc32Ieee := by
  let := crc32Ieee
  intro h
  obtain ⟨g, hcreate, hview, -⟩ := exists_created
  have hsafe := h (PageFile.open []) g 0 longKey (.create hcreate) isIndexKey_longKey
  have hempty : Fits [] := by decide
  have hneeds : NeedsSplit (leafPage [] 0 0) longKey := by
    rw [NeedsSplit, neededSize, numRows_leafPage hempty, existingDataSize_leafPage hempty,
      length_longKey]
    decide
  have hfind : findIdxInsertionPoint (leafPage [] 0 0) longKey = .ok 0 := by
    unfold findIdxInsertionPoint
    rw [numRows_leafPage hempty]
    rfl
  have hhalves := (hsafe.entry 0 _ 0 (descend_leaf hview) hfind).2 hneeds
  have hright : usedSize [encodeEntry longKey] ≤ pageSize - checksumSize :=
    ((halvesFit_leafPage hempty (Nat.zero_le _)).mp hhalves).2
  rw [usedSize, dataSize, List.map_singleton, List.sum_singleton, length_encodeEntry,
    length_longKey] at hright
  revert hright
  decide

/-- The first insertion into a new tree, of a key of one text. -/
theorem index_insert_safe_iff_created : letI := crc32Ieee
    ∃ root g, IdxReached InsertFits (PageFile.open []) root g ∧
      (IndexInsertSafe g root longKey ↔ InsertFits g root longKey) := by
  let := crc32Ieee
  have hcreate : IndexTreeWriter.create (PageFile.open []) = .ok 0 _ := rfl
  exact ⟨0, _, .create hcreate, index_insert_safe_iff (.create hcreate) longKey⟩

end BoogyDb
