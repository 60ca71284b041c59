import BoogyDb.LeafSplit
import Mathlib.Data.List.Induction

/-!
# Splits over the runs of a table tree

A run of a table tree creates it and then inserts, deletes, deletes and updates
by predicate, and commits, in any order; a call may return an error on the way.
When every insertion of the run finds room (`InsertRoom`), the pages of the tree
stay pages (`TreeAt`), and the next insertion is safe exactly when it finds room
too.  Without that condition a split can write under the checksum or panic
(`not_insert_safe`).
-/

namespace BoogyDb

open Bytes Wp WriteGuard BTreeWriter
open FencedTree (insertIdx_eq_take_drop)

/-! ## The operations keep the shape -/

section

variable [Crc32Fast] {κ : Type} {fmt : BranchFormat κ} {height : ℕ → Option ℕ}
  {g g' : WriteGuard} {p h : ℕ}

/-- Pages that were not there before do not matter. -/
theorem Reshapes.appends (hI : WellShaped fmt g height none) (happ : Appends g g') :
    Reshapes fmt h g height g' height where
  «extends» := .refl height
  shaped := by
    refine ⟨fun q k hq _ => ?_, fun q k hq => ?_⟩
    · rw [happ.view_eq q (hI.below q k hq).1]
      exact hI.page q k hq (by simp)
    · exact ⟨(hI.below q k hq).1.trans_le happ.bound_le, (hI.below q k hq).2⟩
  frame q k hq _ := happ.view_eq q (hI.below q k hq).1

/-- A descent ends in a leaf page of the tree, or in an error. -/
theorem descend_shaped {depthError : String} {route : Page → Result ℕ} (fuel : ℕ)
    (hI : WellShaped fmt g height none) (hp : height p = some h)
    (hroute : ∀ children keys, fmt.BranchFits children keys →
      ∃ child ∈ children, route (fmt.branchPage children keys) = .ok child) :
    (∃ leaf page, descend depthError g.view route fuel p = .ok (leaf, page) ∧
      height leaf = some 0 ∧ g.view leaf = .ok page) ∨
    ∃ e, descend depthError g.view route fuel p = .error (.error e) := by
  induction fuel generalizing p h with
  | zero => exact .inr ⟨_, rfl⟩
  | succ fuel ih =>
      cases h with
      | zero =>
          obtain ⟨rows, next, prev, hview, -⟩ := hI.leaf hp
          exact .inl ⟨p, _, descend_leaf hview, hp, hview⟩
      | succ h =>
          obtain ⟨children, keys, hview, hfits, hchildren⟩ := hI.branch hp
          obtain ⟨child, hmem, hchild⟩ := hroute children keys hfits
          rw [descend_branch hview hchild]
          exact ih (hchildren child hmem)

end

section

variable [Crc32Fast] {height : ℕ → Option ℕ} {g : WriteGuard} {pageNo root h : ℕ} {page : Page}
  {rowid : UInt64} {row : List UInt8}

/-- What an insertion needs of the leaf it reaches: nothing when the row goes in
place, room for a split otherwise. -/
def LeafRoom (page : Page) (pos len : ℕ) : Prop :=
  pageSize < neededSize page len →
    if len ≤ maxSingleRow then SplitRoom page pos len else pos = 0 ∨ pos = page.numRows

theorem wp_insertIntoLeaf_shaped (hI : WellShaped rowBranch g height none)
    (hp : height pageNo = some 0) (hview : g.view pageNo = .ok page)
    (hroom : ∀ pos, findInsertionPoint page rowid = .ok (pos, false) →
      LeafRoom page pos row.length) :
    wp (insertIntoLeaf rowid row pageNo page) (SplitsAt rowBranch 0 g height)
      (FailsSafely rowBranch 0 g height) g := by
  obtain ⟨rows, next, prev, hview', hfits, hnext, hprev, hleaf⟩ := hI.leaf hp
  obtain rfl : page = leafPage rows next prev := Except.ok.inj (hview.symm.trans hview')
  have hfail : ∀ e, e ≠ .panic → FailsSafely rowBranch 0 g height e g :=
    fun e he => ⟨he, height, .refl hI⟩
  rw [insertIntoLeaf, wp_bind]
  cases hfind : findInsertionPoint (leafPage rows next prev) rowid with
  | error e =>
      rw [wp_lift_error rfl]
      exact hfail e fun he => findInsertionPoint_ne_panic hfits (by rw [hfind, he])
  | ok res =>
  obtain ⟨pos, found⟩ := res
  obtain ⟨hpos, -⟩ := findInsertionPoint_bounds hfits hfind
  rw [wp_lift_ok rfl]
  dsimp only
  refine wp_ite (fun _ => hfail _ (by simp)) fun hnew => ?_
  have hroom : LeafRoom (leafPage rows next prev) pos row.length :=
    hroom pos (by rw [hfind, Bool.eq_false_iff.mpr hnew])
  refine wp_ite (fun hsize => ?_) fun hsize => ?_
  · rw [wp_bind]
    refine (wp_insertInPlace_shaped hI hp hfits hpos ((neededSize_leafPage hfits hpos).mp hsize)
      hnext hprev hleaf).post fun _ g' hr => ?_
    exact ⟨height, hr, fun _ _ heq => by cases heq⟩
  · replace hroom := hroom (Nat.lt_of_not_le hsize)
    refine wp_ite (fun hlong => ?_) fun hshort => ?_
    · -- the row goes to overflow pages, and its cell to the leaf
      rw [if_neg (Nat.not_le.mpr hlong), numRows_leafPage hfits] at hroom
      have hlong' : inlineDataLen ≤ row.length := (Nat.sub_le _ _).trans hlong.le
      rw [wp_bind]
      refine (wp_writeOverflowRow hlong' (Nat.zero_lt_of_lt (hI.below _ _ hp).1)
        fun e g' he happ => ⟨he.ne_panic, height, .appends hI happ⟩).post ?_
      rintro cell g₁ ⟨happ, hcell, _⟩
      have hr₁ : Reshapes rowBranch 0 g height g₁ height := .appends hI happ
      have hcell' : cell.length = maxSingleRow := hcell
      refine wp_ite (fun hsize => ?_) fun hsize => ?_
      · rw [wp_bind]
        refine (wp_insertInPlace_shaped hr₁.shaped hp hfits hpos
          ((neededSize_leafPage hfits hpos).mp hsize) hnext hprev hleaf).mono ?_ ?_
        · intro _ g' hr
          exact ⟨height, hr₁.trans hr, fun _ _ heq => by cases heq⟩
        · intro e g' hf
          exact .trans hr₁ hf
      -- an empty leaf takes every cell, so the leaf has rows, all on one side of the new one
      · have hne : rows ≠ [] := by
          rintro rfl
          refine hsize ?_
          rw [neededSize, numRows_leafPage hfits, existingDataSize_leafPage hfits, hcell']
          decide
        obtain ⟨mid, hmid, hmid₀, hmidle, hleft, hright⟩ :=
          @findOverflowSplitPoint_edge _ rows next prev pos cell hfits hne hcell' hroom
        rw [wp_bind, numRows_leafPage hfits, wp_lift_ok hmid]
        refine (wp_splitLeaf_shaped hr₁.shaped hp hfits hpos (by omega) hleft hright hnext hprev
          hleaf ?_).mono ?_ ?_
        · rw [extractIdAtVirtualPos_leafPage hfits hpos (by omega)]
          exact extractId_ne_panic _
        · rintro r g' ⟨height', hr, hnew⟩
          exact ⟨height', hr₁.trans hr, hnew⟩
        · intro e g' hf
          exact .trans hr₁ hf
    -- an ordinary row splits the leaf at half the row count, which is what `SplitRoom` is about
    · rw [if_pos (Nat.le_of_not_lt hshort), splitRoom_leafPage hfits hpos] at hroom
      rw [numRows_leafPage hfits]
      refine wp_splitLeaf_shaped hI hp hfits hpos (by omega) hroom.1 hroom.2 hnext hprev hleaf ?_
      rw [extractIdAtVirtualPos_leafPage hfits hpos (by omega)]
      exact extractId_ne_panic _

/-- The leaf an insertion of `rowid` reaches. -/
def reachedLeaf (g : WriteGuard) (root : ℕ) (rowid : UInt64) : Result (ℕ × Page) :=
  descend "B+ tree depth exceeds maximum in insert_recursive" g.view (routeKey rowBranch rowid)
    maxTreeDepth root

/-- An insertion finds room: the leaf it reaches takes the row, or can be split. -/
def InsertRoom (g : WriteGuard) (root : ℕ) (rowid : UInt64) (row : List UInt8) : Prop :=
  ∀ pageNo page pos, reachedLeaf g root rowid = .ok (pageNo, page) →
    findInsertionPoint page rowid = .ok (pos, false) → LeafRoom page pos row.length

/-- The pages below `root` are the pages of a tree. -/
def TreeAt (g : WriteGuard) (root : ℕ) : Prop :=
  ∃ height h, WellShaped rowBranch g height none ∧ height root = some h

theorem Reshapes.treeAt {g' : WriteGuard} {height' : ℕ → Option ℕ} {k : ℕ}
    (hr : Reshapes rowBranch k g height g' height') (hroot : height root = some h) :
    TreeAt g' root := ⟨height', h, hr.shaped, hr.extends _ _ hroot⟩

theorem wp_create : wp create (fun root g' => TreeAt g' root) (fun _ _ => True) g := by
  rw [create, createTree, wp_bind]
  refine wp_allocatePage (fun g₁ halloc => ?_) fun _ _ _ => trivial
  rw [wp_bind, newLeaf_eq_leafPage]
  refine wp_putPage fun g₂ hputs => ?_
  have hempty : WellShaped rowBranch g (fun _ => none) none :=
    ⟨fun _ _ hq => absurd hq (by simp), fun _ _ hq => absurd hq (by simp)⟩
  have hnew : Function.update (fun _ => none) g.bound (some 0) g.bound = some 0 :=
    Function.update_self ..
  exact ⟨_, 0, (hempty.take halloc 0).fill hputs hnew
    ⟨[], 0, 0, rfl, by decide, by decide, by decide, fun hne => absurd rfl hne⟩, hnew⟩

/-- **An insertion that finds room does not panic and keeps the tree.** -/
theorem wp_insert (ht : TreeAt g root) (hroom : InsertRoom g root rowid row) :
    wp (BTreeWriter.insert root rowid row) (fun root' g' => TreeAt g' root')
      (fun e g' => e ≠ .panic ∧ TreeAt g' root) g := by
  obtain ⟨height, h, hI, hroot⟩ := ht
  have hfail : ∀ e g', FailsSafely rowBranch h g height e g' → e ≠ .panic ∧ TreeAt g' root :=
    fun e g' ⟨he, height', hr⟩ => ⟨he, hr.treeAt hroot⟩
  have hrec := @wp_insertRecursive_shaped _ rowBranch _ height g root h _
    "B+ tree depth exceeds maximum in insert_recursive" rowid (insertIntoLeaf rowid row)
    maxTreeDepth hI hroot fun pageNo page hp hdescend => by
      have hreached : reachedLeaf g root rowid = .ok (pageNo, page) := hdescend
      rcases @descend_shaped _ _ rowBranch height g root h
        "B+ tree depth exceeds maximum in insert_recursive" (routeKey rowBranch rowid) maxTreeDepth
        hI hroot (fun children keys hfits => ⟨_, List.getElem_mem _,
          routeKey_branchPage hfits rowid⟩) with ⟨leaf, page', hok, -, hview⟩ | ⟨e, he⟩
      · obtain ⟨rfl, rfl⟩ := Prod.mk.inj (Except.ok.inj (hok.symm.trans hdescend))
        exact wp_insertIntoLeaf_shaped hI hp hview fun pos hfind =>
          hroom leaf page' pos hreached hfind
      · rw [he] at hdescend
        cases hdescend
  rw [BTreeWriter.insert, wp_bind]
  refine hrec.mono ?_ hfail
  rintro r g₁ ⟨height₁, hr₁, hnew⟩
  have hroot₁ := hr₁.extends _ _ hroot
  refine (wp_growRoot_shaped hr₁.shaped hroot₁ hnew (by decide)).mono ?_ ?_
  · rintro root' g₂ ⟨height₂, _, hI₂, h', hroot'⟩
    exact ⟨height₂, h', hI₂, hroot'⟩
  · intro e g₂ hf
    exact hfail e g₂ (.trans hr₁ hf)

theorem wp_delete (ht : TreeAt g root) :
    wp (delete root rowid) (fun _ g' => TreeAt g' root) (fun _ g' => TreeAt g' root) g := by
  obtain ⟨height, h, hI, hroot⟩ := ht
  have hstay : TreeAt g root := ⟨height, h, hI, hroot⟩
  rw [delete, wp_bind, wp_readOnly]
  rcases @descend_shaped _ _ rowBranch height g root h
    "B+ tree depth exceeds maximum in delete_recursive" (routeKey rowBranch rowid) maxTreeDepth
    hI hroot (fun children keys hfits => ⟨_, List.getElem_mem _,
      routeKey_branchPage hfits rowid⟩) with ⟨leaf, page, hok, hleaf₀, hview⟩ | ⟨e, he⟩
  · obtain ⟨rows, next, prev, hview', hfits, hnext, hprev, hleaf⟩ := hI.leaf hleaf₀
    obtain rfl : page = leafPage rows next prev := Except.ok.inj (hview.symm.trans hview')
    rw [hok]
    dsimp only
    refine wp_ite (fun _ => hstay) fun _ => ?_
    rw [wp_bind]
    cases hfind : findInsertionPoint (leafPage rows next prev) rowid with
    | error e =>
        rw [wp_lift_error rfl]
        exact hstay
    | ok res =>
        obtain ⟨pos, found⟩ := res
        obtain ⟨-, hpos⟩ := findInsertionPoint_bounds hfits hfind
        rw [wp_lift_ok rfl]
        refine wp_ite (fun hfound => ?_) fun _ => hstay
        rw [wp_bind]
        exact (wp_removeInPlace_shaped hI hleaf₀ hfits (hpos hfound) hnext hprev hleaf).mono
          (fun _ g' hr => hr.treeAt hroot) fun e g' ⟨_, height', hr⟩ => hr.treeAt hroot
  · rw [he]
    exact hstay

/-! ## Bulk operations -/

/-- A walk over the leaves that rewrites each keeps the shape, when the rewrite
of one leaf does. -/
theorem wp_rewriteLeaves_shaped {α : Type} {cycleError : String}
    {visit : ℕ → Page → α → StateResult WriteGuard α}
    (hvisit : ∀ g p page acc, WellShaped rowBranch g height none → height p = some 0 →
      g.view p = .ok page → wp (visit p page acc)
        (fun _ g' => Reshapes rowBranch 0 g height g' height)
        (fun _ g' => Reshapes rowBranch 0 g height g' height) g)
    (fuel : ℕ) (hI : WellShaped rowBranch g height none) (hp : height pageNo = some 0) (acc : α) :
    wp (rewriteLeaves cycleError visit fuel pageNo acc)
      (fun _ g' => Reshapes rowBranch 0 g height g' height)
      (fun _ g' => Reshapes rowBranch 0 g height g' height) g := by
  induction fuel generalizing g pageNo acc with
  | zero => exact .refl hI
  | succ fuel ih =>
      obtain ⟨rows, next, prev, hview, hfits, hnext, hprev, hleaf⟩ := hI.leaf hp
      rw [rewriteLeaves, wp_bind]
      refine wp_readPage hview ?_
      rw [wp_bind, nextLeaf_leafPage hnext]
      refine (hvisit g pageNo _ acc hI hp hview).post fun acc' g₁ hr₁ => ?_
      refine wp_ite (fun _ => hr₁) fun hne => ?_
      exact (ih hr₁.shaped (hleaf hne) acc').mono (fun _ _ hr => hr₁.trans hr)
        fun _ _ hr => hr₁.trans hr

theorem wp_deleteMatchingLeaf_shaped {pred : List UInt8 → Bool}
    {deleted : List (UInt64 × List UInt8)}
    (hI : WellShaped rowBranch g height none) (hp : height pageNo = some 0)
    (hview : g.view pageNo = .ok page) :
    wp (deleteMatchingLeaf pred pageNo page deleted)
      (fun _ g' => Reshapes rowBranch 0 g height g' height)
      (fun _ g' => Reshapes rowBranch 0 g height g' height) g := by
  obtain ⟨rows, next, prev, hview', hfits, hnext, hprev, hleaf⟩ := hI.leaf hp
  obtain rfl : page = leafPage rows next prev := Except.ok.inj (hview.symm.trans hview')
  rw [deleteMatchingLeaf, wp_bind, wp_readOnly]
  cases hmatch : matchRows pred g (leafPage rows next prev) with
  | error e => exact .refl hI
  | ok res =>
      obtain ⟨matched, idxs⟩ := res
      obtain ⟨-, hidxs⟩ := matchRows_leafPage hfits hmatch
      dsimp only
      refine wp_ite (fun _ => .refl hI) fun _ => ?_
      obtain ⟨page', hwrite, hlays⟩ := @writeLeafWithoutMultiple_leafPage _ rows next prev rows next
        prev hfits (fun row => (hitRow g pred row).isSome)
        (fun i => (hitRow g pred (rows.getD i [])).isSome) fun i hi => by
          rw [List.getD_eq_getElem?_getD, List.getElem?_eq_getElem hi, Option.getD_some]
      rw [wp_bind, numRows_leafPage hfits, hidxs]
      refine wp_modifyPage hview (by rw [hwrite, ok_bind, nextLeaf_leafPage hnext,
        prevLeaf_leafPage hprev, hlays.toLeafPage, pure_eq_ok]) fun g' hputs => ?_
      exact .put hI hputs hp ⟨_, next, prev, rfl, hfits.sublist List.filter_sublist, hnext, hprev,
        hleaf⟩

theorem wp_updateMatchingLeaf_shaped {pred : List UInt8 → Bool}
    {updater : List UInt8 → List UInt8} {acc : List RowUpdate × List RowUpdate}
    (hI : WellShaped rowBranch g height none) (hp : height pageNo = some 0)
    (hview : g.view pageNo = .ok page) :
    wp (updateMatchingLeaf pred updater pageNo page acc)
      (fun _ g' => Reshapes rowBranch 0 g height g' height)
      (fun _ g' => Reshapes rowBranch 0 g height g' height) g := by
  obtain ⟨rows, next, prev, hview', hfits, hnext, hprev, hleaf⟩ := hI.leaf hp
  obtain rfl : page = leafPage rows next prev := Except.ok.inj (hview.symm.trans hview')
  rw [updateMatchingLeaf, wp_bind, wp_readOnly]
  cases hreplace : replaceRows pred updater g (leafPage rows next prev) with
  | error e => exact .refl hI
  | ok replacements =>
      have hpositions := @map_replacements rows (hitRow g pred) updater
      rw [← replaceRows_leafPage hfits hreplace] at hpositions
      have hwrite := @writeLeafWithReplacements_leafPage _ rows next prev rows next prev hfits
        (fun row => (hitRow g pred row).map fun r => updater r.2)
        (fun i => (hitRow g pred (rows.getD i [])).map fun r => updater r.2)
        (fun i hi => by
          rw [List.getD_eq_getElem?_getD, List.getElem?_eq_getElem hi, Option.getD_some])
        hnext hprev
      dsimp only
      refine wp_ite (fun _ => .refl hI) fun _ => ?_
      rw [wp_bind]
      refine wp_readPage hview ?_
      rw [wp_bind, numRows_leafPage hfits, hpositions, wp_lift_ok hwrite]
      split
      · next page' hpage' =>
          rw [wp_bind]
          refine wp_putPage fun g' hputs => ?_
          split at hpage'
          · next hfits' =>
              cases hpage'
              exact .put hI hputs hp ⟨_, next, prev, rfl, hfits', hnext, hprev, hleaf⟩
          · cases hpage'
      · rw [wp_bind]
        exact wp_putPage fun g' hputs =>
          .put hI hputs hp ⟨rows, next, prev, rfl, hfits, hnext, hprev, hleaf⟩

/-- The frame of a bulk operation: the leftmost leaf, the bound, the walk. -/
theorem wp_bulk {α : Type} {cycleError : String} {visit : ℕ → Page → α → StateResult WriteGuard α}
    (hvisit : ∀ height g p page acc, WellShaped rowBranch g height none → height p = some 0 →
      g.view p = .ok page → wp (visit p page acc)
        (fun _ g' => Reshapes rowBranch 0 g height g' height)
        (fun _ g' => Reshapes rowBranch 0 g height g' height) g)
    (ht : TreeAt g root) (acc : α) :
    wp (do
        let firstLeaf ← readOnly fun guard => findLeftmostLeafW guard root
        let maxPages ← readOnly maxPages
        rewriteLeaves cycleError visit maxPages firstLeaf acc)
      (fun _ g' => TreeAt g' root) (fun _ g' => TreeAt g' root) g := by
  obtain ⟨height, h, hI, hroot⟩ := ht
  have hstay : TreeAt g root := ⟨height, h, hI, hroot⟩
  rw [wp_bind, wp_readOnly, findLeftmostLeafW]
  rcases @descend_shaped _ _ rowBranch height g root h
    "B+ tree depth exceeds maximum in find_leftmost_leaf_w" (routeFirst rowBranch) maxTreeDepth
    hI hroot (fun children keys hfits => ⟨_, List.getElem_mem _,
      routeFirst_branchPage hfits⟩) with ⟨leaf, page, hok, hleaf₀, -⟩ | ⟨e, he⟩
  · rw [hok, ok_bind]
    dsimp only [pure_eq_ok]
    rw [wp_bind, wp_readOnly]
    cases maxPages g with
    | error e => exact hstay
    | ok n =>
        exact (wp_rewriteLeaves_shaped (hvisit height) n hI hleaf₀ acc).mono
          (fun _ g' hr => hr.treeAt hroot) fun _ g' hr => hr.treeAt hroot
  · rw [he]
    exact hstay

theorem wp_deleteMatching {pred : List UInt8 → Bool} (ht : TreeAt g root) :
    wp (deleteMatching root pred) (fun _ g' => TreeAt g' root) (fun _ g' => TreeAt g' root) g :=
  wp_bulk (fun _ _ _ _ _ hI hp hview => wp_deleteMatchingLeaf_shaped hI hp hview) ht []

theorem wp_updateMatching {pred : List UInt8 → Bool} {updater : List UInt8 → List UInt8}
    (ht : TreeAt g root) :
    wp (updateMatching root pred updater) (fun _ g' => TreeAt g' root)
      (fun _ g' => TreeAt g' root) g :=
  wp_bulk (fun _ _ _ _ _ hI hp hview => wp_updateMatchingLeaf_shaped hI hp hview) ht ([], [])

theorem TreeAt.commit {file : PageFile} {afterImages : List (ℕ × Page)} (ht : TreeAt g root)
    (hcommit : g.commit = .ok (afterImages, file)) : TreeAt file root := by
  obtain ⟨height, h, hI, hroot⟩ := ht
  refine ⟨height, h, ⟨fun p k hp hne => ?_, fun p k hp => ?_⟩, hroot⟩
  · obtain ⟨page, hview, hpage⟩ := hI.page p k hp hne
    exact ⟨page, commit_view hcommit (hI.below p k hp).1 hview, hpage⟩
  · rw [commit_bound hcommit]
    exact hI.below p k hp

end

/-! ## Runs -/

section

variable [Crc32Fast]

/-- The state a call leaves behind, when it did not panic. -/
def Leaves {α : Type} (x : StateResult WriteGuard α) (g g' : WriteGuard) : Prop :=
  (∃ a, x g = .ok a g') ∨ ∃ e, e ≠ .panic ∧ x g = .error e g'

/-- The roots and states of a table tree that was created in `g₀`; every insertion
met the condition `room`. -/
inductive Reached (room : WriteGuard → ℕ → UInt64 → List UInt8 → Prop) (g₀ : WriteGuard) :
    ℕ → WriteGuard → Prop
  | create {root : ℕ} {g : WriteGuard} (h : BTreeWriter.create g₀ = .ok root g) :
      Reached room g₀ root g
  | insert {root root' : ℕ} {g g' : WriteGuard} {rowid : UInt64} {row : List UInt8}
      (hreached : Reached room g₀ root g) (hroom : room g root rowid row)
      (h : BTreeWriter.insert root rowid row g = .ok root' g') : Reached room g₀ root' g'
  | insertFailed {root : ℕ} {g g' : WriteGuard} {rowid : UInt64} {row : List UInt8} {e : Fault}
      (hreached : Reached room g₀ root g) (hroom : room g root rowid row)
      (h : BTreeWriter.insert root rowid row g = .error e g') : Reached room g₀ root g'
  | delete {root : ℕ} {g g' : WriteGuard} {rowid : UInt64} (hreached : Reached room g₀ root g)
      (h : Leaves (BTreeWriter.delete root rowid) g g') : Reached room g₀ root g'
  | deleteMatching {root : ℕ} {g g' : WriteGuard} {pred : List UInt8 → Bool}
      (hreached : Reached room g₀ root g)
      (h : Leaves (BTreeWriter.deleteMatching root pred) g g') : Reached room g₀ root g'
  | updateMatching {root : ℕ} {g g' : WriteGuard} {pred : List UInt8 → Bool}
      {updater : List UInt8 → List UInt8} (hreached : Reached room g₀ root g)
      (h : Leaves (BTreeWriter.updateMatching root pred updater) g g') : Reached room g₀ root g'
  | commit {root : ℕ} {g file : WriteGuard} {afterImages : List (ℕ × Page)}
      (hreached : Reached room g₀ root g) (h : g.commit = .ok (afterImages, file)) :
      Reached room g₀ root file

theorem Leaves.treeAt {α : Type} {x : StateResult WriteGuard α} {g g' : WriteGuard} {root : ℕ}
    (h : Leaves x g g')
    (hx : wp x (fun _ g' => TreeAt g' root) (fun _ g' => TreeAt g' root) g) : TreeAt g' root := by
  rcases h with ⟨a, hok⟩ | ⟨e, -, herr⟩
  · exact hx.ok hok
  · exact hx.error herr

/-- **Every state of a run whose insertions find room is a tree of pages.** -/
theorem Reached.treeAt {g₀ g : WriteGuard} {root : ℕ} (h : Reached InsertRoom g₀ root g) :
    TreeAt g root := by
  induction h with
  | create h => exact wp_create.ok h
  | insert _ hroom h ih => exact (wp_insert ih hroom).ok h
  | insertFailed _ hroom h ih => exact ((wp_insert ih hroom).error h).2
  | delete _ h ih => exact h.treeAt (wp_delete ih)
  | deleteMatching _ h ih => exact h.treeAt (wp_deleteMatching ih)
  | updateMatching _ h ih => exact h.treeAt (wp_updateMatching ih)
  | commit _ h ih => exact ih.commit h

/-! ## Safe insertions -/

/-- An insertion is safe: it does not panic, and when the leaf it reaches is split
at half its row count, both halves stay clear of the checksum. -/
def InsertSafe (g : WriteGuard) (root : ℕ) (rowid : UInt64) (row : List UInt8) : Prop :=
  ¬ Panics (BTreeWriter.insert root rowid row) g ∧
    ∀ pageNo page pos, reachedLeaf g root rowid = .ok (pageNo, page) →
      findInsertionPoint page rowid = .ok (pos, false) → pageSize < neededSize page row.length →
        HalvesFit page pos row

/-- Insertions of rows of up to 4074 bytes that are not there are safe, after any
run. -/
def SplitsAlwaysSafe : Prop :=
  ∀ (g₀ g : WriteGuard) (root : ℕ) (rowid : UInt64) (row : List UInt8),
    Reached (fun _ _ _ _ => True) g₀ root g → BTreeWriter.search g root rowid = .ok none →
      row.length ≤ maxSingleRow → InsertSafe g root rowid row

/-- **Leaf split safety.**  In every run whose insertions find room, the insertion
of a row of up to 4074 bytes is safe exactly when it finds room. -/
theorem insert_safe_iff {g₀ g : WriteGuard} {root : ℕ} (h : Reached InsertRoom g₀ root g)
    (rowid : UInt64) {row : List UInt8} (hlen : row.length ≤ maxSingleRow) :
    InsertSafe g root rowid row ↔ InsertRoom g root rowid row := by
  have ht := h.treeAt
  -- the leaf that is reached, its rows, and the room in it
  have hleaf : ∀ pageNo page pos, reachedLeaf g root rowid = .ok (pageNo, page) →
      findInsertionPoint page rowid = .ok (pos, false) →
        (SplitRoom page pos row.length ↔ HalvesFit page pos row) := by
    intro pageNo page pos hreached hfind
    obtain ⟨height, k, hI, hroot⟩ := ht
    rcases @descend_shaped _ _ rowBranch height g root k
      "B+ tree depth exceeds maximum in insert_recursive" (routeKey rowBranch rowid) maxTreeDepth
      hI hroot (fun children keys hfits => ⟨_, List.getElem_mem _,
        routeKey_branchPage hfits rowid⟩) with ⟨leaf, page', hok, hleaf₀, hview⟩ | ⟨e, he⟩
    · obtain ⟨rfl, rfl⟩ := Prod.mk.inj (Except.ok.inj (hok.symm.trans hreached))
      obtain ⟨rows, next, prev, hview', hfits, -⟩ := hI.leaf hleaf₀
      obtain rfl : page' = leafPage rows next prev := Except.ok.inj (hview.symm.trans hview')
      have hpos := (findInsertionPoint_bounds hfits hfind).1
      rw [splitRoom_leafPage hfits hpos, halvesFit_leafPage hfits hpos]
    · rw [reachedLeaf, he] at hreached
      cases hreached
  constructor
  · rintro ⟨-, hhalves⟩ pageNo page pos hreached hfind hsize
    rw [if_pos hlen, hleaf pageNo page pos hreached hfind]
    exact hhalves pageNo page pos hreached hfind hsize
  · intro hroom
    refine ⟨not_panics_of_wp ((wp_insert ht hroom).mono (fun _ _ => id) fun e g' he => he.1), ?_⟩
    intro pageNo page pos hreached hfind hsize
    have hsplit := hroom pageNo page pos hreached hfind hsize
    rw [if_pos hlen] at hsplit
    exact (hleaf pageNo page pos hreached hfind).mp hsplit

/-! ## A split that is not safe -/

/-- A row above all others, in a root leaf with room for it. -/
theorem wp_insert_rootLeaf {g : WriteGuard} {root next prev : ℕ} {rows : List (List UInt8)}
    {ids : List UInt64} {rowid : UInt64} {row : List UInt8} {E : Fault → WriteGuard → Prop}
    (hview : g.view root = .ok (leafPage rows next prev)) (hfits : Fits (rows ++ [row]))
    (hids : HaveIds rows ids) (hsorted : ids.Pairwise (· < ·)) (habove : ∀ id ∈ ids, id < rowid)
    (hnext : next < pageNoLimit) (hprev : prev < pageNoLimit) :
    wp (BTreeWriter.insert root rowid row) (fun root' g' => root' = root ∧
      Puts g g' root (leafPage (rows ++ [row]) next prev)) E g := by
  have hfits₀ : Fits rows := hfits.sublist (List.sublist_append_left _ _)
  have hinsert : rows.insertIdx rows.length row = rows ++ [row] := by
    rw [insertIdx_eq_take_drop le_rfl, List.take_length, List.drop_length]
  have hsize := (@neededSize_leafPage rows row next prev rows.length _ hfits₀ le_rfl).mpr
    (hinsert ▸ hfits)
  have hfind := @findInsertionPoint_end _ rows next prev rowid ids hfits₀ hids hsorted habove
  rw [BTreeWriter.insert, wp_bind, show maxTreeDepth = 63 + 1 from rfl, insertRecursive, wp_bind]
  refine wp_readPage hview ?_
  rw [if_pos isLeaf_leafPage, insertIntoLeaf, wp_bind, wp_lift_ok hfind]
  dsimp only
  rw [if_neg (by simp), if_pos hsize, wp_bind]
  refine wp_insertInPlace hview hfits₀ le_rfl (hinsert ▸ hfits) hnext hprev fun g' hputs => ?_
  rw [hinsert] at hputs
  exact ⟨rfl, hputs⟩

/-- A row of `len` bytes that holds its row id and zeros. -/
def paddedRow (rowid : UInt64) (len : ℕ) : List UInt8 :=
  leBytes 8 rowid.toNat ++ List.replicate (len - 8) 0

omit [Crc32Fast] in
theorem length_paddedRow (rowid : UInt64) {len : ℕ} (h : 8 ≤ len) :
    (paddedRow rowid len).length = len := by
  rw [paddedRow, List.length_append, length_leBytes, List.length_replicate]
  omega

omit [Crc32Fast] in
theorem usedSize_paddedRows {entries : List (UInt64 × ℕ)} (h : ∀ e ∈ entries, 8 ≤ e.2) :
    usedSize (entries.map fun e => paddedRow e.1 e.2) =
      pageHeaderSize + entries.length * 2 + (entries.map Prod.snd).sum := by
  rw [usedSize, dataSize, List.length_map, List.map_map]
  congr 2
  exact List.map_congr_left fun e he => length_paddedRow e.1 (h e he)

omit [Crc32Fast] in
theorem haveIds_paddedRows (entries : List (UInt64 × ℕ)) :
    HaveIds (entries.map fun e => paddedRow e.1 e.2) (entries.map Prod.fst) := by
  rw [HaveIds, List.forall₂_map_left_iff, List.forall₂_map_right_iff, List.forall₂_same]
  exact fun e _ => extractId_append e.1 _

/-- Rows that fit one page, inserted in the order of their ids, are held by the
root leaf. -/
theorem reached_rootLeaf {entries : List (UInt64 × ℕ)}
    (hsorted : (entries.map Prod.fst).Pairwise (· < ·))
    (hfits : Fits (entries.map fun e => paddedRow e.1 e.2)) :
    ∃ root g, Reached (fun _ _ _ _ => True) (PageFile.open []) root g ∧
      g.view root = .ok (leafPage (entries.map fun e => paddedRow e.1 e.2) 0 0) := by
  induction entries using List.reverseRecOn with
  | nil =>
      obtain ⟨g, hok, hview, -⟩ := exists_created
      exact ⟨0, g, .create hok, hview⟩
  | append_singleton entries e ih =>
      rw [List.map_append, List.map_singleton] at hsorted hfits
      rw [List.map_append, List.map_singleton]
      rw [List.pairwise_append] at hsorted
      obtain ⟨root, g, hreached, hview⟩ :=
        ih hsorted.1 (hfits.sublist (List.sublist_append_left _ _))
      obtain ⟨root', g', hok, rfl, hputs⟩ := wp.exists_ok (wp_insert_rootLeaf hview hfits
        (haveIds_paddedRows entries) hsorted.1
        (fun id hid => hsorted.2.2 id hid e.1 List.mem_cons_self) (by decide) (by decide))
      exact ⟨root', g', .insert hreached trivial hok, hputs.view_self⟩

/-- Rows of 10, 10 and 4000 bytes fill a page; a fourth of 2000 bytes goes to the
half of the third. -/
theorem exists_unsafe_insert : ∃ g₀ g root, Reached (fun _ _ _ _ => True) g₀ root g ∧
    BTreeWriter.search g root 4 = .ok none ∧ ¬ InsertSafe g root 4 (paddedRow 4 2000) := by
  set entries : List (UInt64 × ℕ) := [(1, 10), (2, 10), (3, 4000)] with hentries
  set rows := entries.map fun e => paddedRow e.1 e.2 with hrows
  have hlen : rows.length = 3 := rfl
  have hused : usedSize rows = 4042 := usedSize_paddedRows (by decide)
  have hfits : Fits rows := by
    rw [Fits, hused]
    decide
  obtain ⟨root, g, hreached, hview⟩ := @reached_rootLeaf _ entries (by decide) hfits
  have hfind := @findInsertionPoint_end _ rows 0 0 4 (entries.map Prod.fst) hfits
    (haveIds_paddedRows entries) (by decide) (by simp [hentries])
  rw [hlen] at hfind
  refine ⟨PageFile.open [], g, root, hreached, ?_, fun hsafe => ?_⟩
  · rw [search, searchTree, show maxTreeDepth = 63 + 1 from rfl, descend_leaf hview, ok_bind]
    dsimp only
    rw [numRows_leafPage hfits, hlen, if_neg (by decide), hfind, ok_bind]
    rfl
  · have hhalves := hsafe.2 root _ 3 (descend_leaf hview) hfind (by
      rw [← Nat.not_le, neededSize_leafPage hfits hlen.ge, Fits, usedSize_insertIdx hlen.ge, hused,
        length_paddedRow 4 (by decide)]
      decide)
    have hright : rightHalf rows 3 (paddedRow 4 2000) ((3 + 1) / 2) =
        ([(3, 4000), (4, 2000)] : List (UInt64 × ℕ)).map fun e => paddedRow e.1 e.2 := rfl
    rw [halvesFit_leafPage hfits hlen.ge, hlen, hright, Fits, Fits,
      usedSize_paddedRows (by decide)] at hhalves
    exact absurd hhalves.2 (by decide)

end

/-- **Splits are not safe in all runs.** -/
theorem not_insert_safe : ¬ @SplitsAlwaysSafe crc32Ieee := by
  intro h
  obtain ⟨g₀, g, root, hreached, hnone, hunsafe⟩ := @exists_unsafe_insert crc32Ieee
  refine hunsafe (h g₀ g root 4 _ hreached hnone ?_)
  rw [length_paddedRow 4 (by decide)]
  decide

/-! ## Runs that find room -/

/-- Decides `LeafRoom`. -/
def leafTakes (page : Page) (pos len : ℕ) : Bool :=
  decide (neededSize page len ≤ pageSize) ||
    if len ≤ maxSingleRow then
      match weight page (movedAway page pos).1 (movedAway page pos).2 with
      | .ok moved => decide (len + 2 ≤ freeBytes page + moved)
      | .error _ => false
    else decide (pos = 0 ∨ pos = page.numRows)

theorem leafRoom_of_leafTakes {page : Page} {pos len : ℕ} (h : leafTakes page pos len = true) :
    LeafRoom page pos len := by
  intro hsize
  unfold leafTakes at h
  rw [decide_eq_false (Nat.not_le.mpr hsize), Bool.false_or] at h
  split at h
  · rename_i hlen
    rw [if_pos hlen]
    split at h
    · rename_i moved hmoved
      exact ⟨moved, hmoved, of_decide_eq_true h⟩
    · cases h
  · rename_i hlen
    rw [if_neg hlen]
    exact of_decide_eq_true h

section

variable [Crc32Fast]

/-- Decides `InsertRoom`. -/
def findsRoom (g : WriteGuard) (root : ℕ) (rowid : UInt64) (row : List UInt8) : Bool :=
  match reachedLeaf g root rowid with
  | .ok (_, page) =>
      match findInsertionPoint page rowid with
      | .ok (pos, false) => leafTakes page pos row.length
      | _ => true
  | .error _ => true

theorem insertRoom_of_findsRoom {g : WriteGuard} {root : ℕ} {rowid : UInt64} {row : List UInt8}
    (h : findsRoom g root rowid row = true) : InsertRoom g root rowid row := by
  intro pageNo page pos hreached hfind
  unfold findsRoom at h
  rw [hreached] at h
  dsimp only at h
  rw [hfind] at h
  exact leafRoom_of_leafTakes h

/-- Insert rows that find room, in a tree with this root. -/
def insertRows : List (UInt64 × List UInt8) → ℕ × WriteGuard → Option (ℕ × WriteGuard)
  | [], tree => some tree
  | (rowid, row) :: rows, (root, g) =>
      if findsRoom g root rowid row then
        match BTreeWriter.insert root rowid row g with
        | .ok root' g' => insertRows rows (root', g')
        | .error _ _ => none
      else none

/-- What every insertion that finds room preserves, rows that are inserted one after the other
preserve. -/
theorem insertRows_preserves {M : Type*} {P : ℕ → WriteGuard → M → Prop}
    {step : M → UInt64 × List UInt8 → M} {rows : List (UInt64 × List UInt8)}
    (hstep : ∀ entry ∈ rows, ∀ root g m root' g', P root g m →
      InsertRoom g root entry.1 entry.2 → BTreeWriter.insert root entry.1 entry.2 g = .ok root' g' →
        P root' g' (step m entry))
    {m : M} {tree tree' : ℕ × WriteGuard} (hP : P tree.1 tree.2 m)
    (h : insertRows rows tree = some tree') : P tree'.1 tree'.2 (rows.foldl step m) := by
  induction rows generalizing tree m with
  | nil =>
      cases h
      exact hP
  | cons entry rows ih =>
      unfold insertRows at h
      split at h
      · rename_i hroom
        split at h
        · rename_i root' g' hinsert
          have hnext : P (root', g').1 (root', g').2 (step m entry) :=
            hstep entry List.mem_cons_self _ _ _ _ _ hP (insertRoom_of_findsRoom hroom) hinsert
          exact ih (fun entry' hmem => hstep entry' (List.mem_cons_of_mem _ hmem)) hnext h
        · cases h
      · cases h

theorem Reached.insertRows {g₀ : WriteGuard} {rows : List (UInt64 × List UInt8)}
    {tree tree' : ℕ × WriteGuard} (hreached : Reached InsertRoom g₀ tree.1 tree.2)
    (h : BoogyDb.insertRows rows tree = some tree') : Reached InsertRoom g₀ tree'.1 tree'.2 :=
  @insertRows_preserves _ Unit (fun root g _ => Reached InsertRoom g₀ root g) (fun _ _ => ()) rows
    (fun _ _ _ _ _ _ _ hP hroom hinsert => .insert hP hroom hinsert) () _ _ hreached h

/-- The rows are inserted, which splits the root, and the tree can be committed. -/
def splitsRoot (rows : List (UInt64 × List UInt8)) (tree : ℕ × WriteGuard) : Bool :=
  match insertRows rows tree with
  | some (root, g) =>
      match g.commit with
      | .ok _ => decide (root ≠ tree.1)
      | .error _ => false
  | none => false

theorem exists_of_splitsRoot {rows : List (UInt64 × List UInt8)} {tree : ℕ × WriteGuard}
    (h : splitsRoot rows tree = true) : ∃ root g afterImages file,
      insertRows rows tree = some (root, g) ∧ root ≠ tree.1 ∧
        g.commit = .ok (afterImages, file) := by
  unfold splitsRoot at h
  split at h
  · rename_i root g hinsert
    split at h
    · rename_i res hcommit
      exact ⟨root, g, res.1, res.2, hinsert, of_decide_eq_true h, hcommit⟩
    · cases h
  · cases h

/-- A tree in a new file. -/
def newTree : ℕ × WriteGuard :=
  match BTreeWriter.create (PageFile.open []) with
  | .ok root g => (root, g)
  | .error _ g => (0, g)

theorem create_newTree : BTreeWriter.create (PageFile.open []) = .ok newTree.1 newTree.2 := rfl

theorem reached_newTree : Reached InsertRoom (PageFile.open []) newTree.1 newTree.2 :=
  .create create_newTree

end

/-- Of three rows of 1500 bytes two are on the second leaf. -/
def threeRows : List (UInt64 × List UInt8) := [1, 2, 3].map fun id => (id, paddedRow id 1500)

/-- A fourth row comes behind all rows of the leaf that it reaches, which is split for it. -/
theorem splitTree_splits_again : letI := crc32Ieee
    (match insertRows threeRows newTree with
      | some (root, g) =>
          match reachedLeaf g root 4 with
          | .ok (_, page) => decide (root ≠ newTree.1 ∧ pageSize < neededSize page 1500 ∧
              findInsertionPoint page 4 = .ok (page.numRows, false) ∧
              leafTakes page page.numRows 1500)
          | .error _ => false
      | none => false) = true := by
  decide +kernel

/-- The tree was split, and is split again. -/
theorem exists_splitTree : letI := crc32Ieee
    ∃ root g pageNo page, insertRows threeRows newTree = some (root, g) ∧ root ≠ newTree.1 ∧
      reachedLeaf g root 4 = .ok (pageNo, page) ∧ pageSize < neededSize page 1500 ∧
      findInsertionPoint page 4 = .ok (page.numRows, false) ∧ leafTakes page page.numRows 1500 := by
  let := crc32Ieee
  have hrows := splitTree_splits_again
  split at hrows
  · rename_i root g htree
    split at hrows
    · rename_i pageNo page hreached
      have hpage := of_decide_eq_true hrows
      exact ⟨root, g, pageNo, page, htree, hpage.1, hreached, hpage.2⟩
    · cases hrows
  · cases hrows

/-- The insertion of a fourth row splits its leaf, and is safe. -/
theorem insert_safe_iff_split : letI := crc32Ieee
    ∃ root g pageNo page, Reached InsertRoom (PageFile.open []) root g ∧
      reachedLeaf g root 4 = .ok (pageNo, page) ∧
      pageSize < neededSize page (paddedRow 4 1500).length ∧
      InsertSafe g root 4 (paddedRow 4 1500) := by
  let := crc32Ieee
  obtain ⟨root, g, pageNo, page, htree, -, hreached, hsize, hfind, htakes⟩ := exists_splitTree
  have hrun : Reached InsertRoom (PageFile.open []) root g := reached_newTree.insertRows htree
  have hlen : (paddedRow 4 1500).length = 1500 := length_paddedRow 4 (by decide)
  have hle : (paddedRow 4 1500).length ≤ maxSingleRow := by
    rw [hlen]
    decide
  rw [← hlen] at hsize htakes
  generalize paddedRow 4 1500 = row at hle hsize htakes
  refine ⟨root, g, pageNo, page, hrun, hreached, hsize, ?_⟩
  refine (insert_safe_iff hrun 4 hle).mpr fun pageNo' page' pos h hpos => ?_
  obtain ⟨rfl, rfl⟩ := Prod.mk.inj (Except.ok.inj (hreached.symm.trans h))
  obtain ⟨rfl, -⟩ := Prod.mk.inj (Except.ok.inj (hfind.symm.trans hpos))
  exact leafRoom_of_leafTakes htakes

end BoogyDb
