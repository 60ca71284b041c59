import BoogyDb.Tree

/-!
# What the shared steps of a tree do

Weakest preconditions of the steps of `Tree` on pages that are leaf and branch
pages: which pages they put where, as a chain of `Puts` and `Allocates`.  The
two invariants of a tree, the one of its shape and the one of its order, are
both preserved because of these.
-/

namespace BoogyDb

open Wp WriteGuard

variable [Crc32Fast] {κ : Type} {E : Fault → WriteGuard → Prop} {g : WriteGuard} {p pos : ℕ}

/-! ## Descending -/

section

variable {fmt : BranchFormat κ} {children : List ℕ} {keys : List κ} {depthError : String}
  {read : ℕ → Result Page} {route : Page → Result ℕ} {fuel child : ℕ}

theorem descend_leaf {rows : List (List UInt8)} {next prev : ℕ}
    (hread : read p = .ok (leafPage rows next prev)) :
    descend depthError read route (fuel + 1) p = .ok (p, leafPage rows next prev) := by
  rw [descend, hread, ok_bind, if_pos isLeaf_leafPage, pure_eq_ok]

theorem not_isLeaf_branchPage : ¬ (fmt.branchPage children keys).isLeaf = true := by
  rw [BranchFormat.isLeaf_branchPage]
  exact Bool.false_ne_true

theorem descend_branch (hread : read p = .ok (fmt.branchPage children keys))
    (hroute : route (fmt.branchPage children keys) = .ok child) :
    descend depthError read route (fuel + 1) p = descend depthError read route fuel child := by
  rw [descend, hread, ok_bind, if_neg not_isLeaf_branchPage, hroute, ok_bind]

omit [Crc32Fast] in
theorem zero_lt_children (hfits : fmt.BranchFits children keys) : 0 < children.length := by
  rw [hfits.length_eq]
  exact Nat.succ_pos _

theorem routeFirst_branchPage (hfits : fmt.BranchFits children keys) :
    routeFirst fmt (fmt.branchPage children keys) =
      .ok (getElem children 0 (zero_lt_children hfits)) :=
  BranchFormat.getBranchChild_branchPage hfits (Nat.zero_le _)

variable [LinearOrder κ]

omit [Crc32Fast] in
theorem childIndex_lt (hfits : fmt.BranchFits children keys) (key : κ) :
    FencedTree.childIndex keys key < children.length := by
  have := FencedTree.childIndex_le keys key
  have := hfits.length_eq
  omega

theorem routeKey_branchPage (hfits : fmt.BranchFits children keys) (key : κ) :
    routeKey fmt key (fmt.branchPage children keys) =
      .ok (getElem children (FencedTree.childIndex keys key) (childIndex_lt hfits key)) := by
  rw [routeKey, BranchFormat.findChild_branchPage hfits key, ok_bind]
  rfl

end

/-! ## Leaves -/

section

variable {rows rows₀ : List (List UInt8)} {row : List UInt8} {next prev next₀ prev₀ : ℕ}
  {Q : Unit → WriteGuard → Prop}

theorem wp_insertInPlace (hview : g.view p = .ok (leafPage rows₀ next₀ prev₀)) (hfits : Fits rows)
    (hpos : pos ≤ rows.length) (hfits' : Fits (rows.insertIdx pos row)) (hnext : next < pageNoLimit)
    (hprev : prev < pageNoLimit)
    (h : ∀ g', Puts g g' p (leafPage (rows.insertIdx pos row) next prev) → Q () g') :
    wp (insertInPlace p (leafPage rows next prev) pos row) Q E g := by
  obtain ⟨page', hwrite, hpage'⟩ := @writeLeafWithInsert_leafPage _ rows row next prev pos rows₀
    next₀ prev₀ hfits hpos hfits' hnext hprev
  rw [insertInPlace]
  refine wp_modifyPage hview ?_ h
  rw [numRows_leafPage hfits, hwrite, ok_bind, hpage', pure_eq_ok]

theorem wp_removeInPlace (hview : g.view p = .ok (leafPage rows₀ next₀ prev₀)) (hfits : Fits rows)
    (hpos : pos < rows.length) (hnext : next < pageNoLimit) (hprev : prev < pageNoLimit)
    (h : ∀ g', Puts g g' p (leafPage (rows.eraseIdx pos) next prev) → Q () g') :
    wp (removeInPlace p (leafPage rows next prev) pos) Q E g := by
  obtain ⟨page', hwrite, hlays⟩ := @writeLeafWithout_leafPage _ rows next prev pos rows₀ next₀
    prev₀ hfits hpos
  rw [removeInPlace]
  refine wp_modifyPage hview ?_ h
  rw [numRows_leafPage hfits, hwrite, ok_bind, nextLeaf_leafPage hnext, prevLeaf_leafPage hprev,
    hlays.toLeafPage, pure_eq_ok]

theorem wp_linkBack {newPage : ℕ} (hnext : next ≠ 0 → g.view next = .ok (leafPage rows next₀ prev₀))
    (hstay : next = 0 → Q () g)
    (hput : next ≠ 0 → ∀ g', Puts g g' next (leafPage rows next₀ newPage) → Q () g') :
    wp (linkBack next newPage) Q E g := by
  rw [linkBack]
  refine wp_ite (fun hne => ?_) fun hzero => hstay (not_not.mp hzero)
  exact wp_modifyPage (hnext hne) (by rw [setPrevLeaf_leafPage, pure_eq_ok]) (hput hne)

end

/-- The rows of the two halves of a split. -/
def leftHalf (rows : List (List UInt8)) (pos : ℕ) (row : List UInt8) (mid : ℕ) :
    List (List UInt8) := (rows.insertIdx pos row).take mid

def rightHalf (rows : List (List UInt8)) (pos : ℕ) (row : List UInt8) (mid : ℕ) :
    List (List UInt8) := (rows.insertIdx pos row).drop mid

section

variable {rows rows₀ : List (List UInt8)} {row : List UInt8} {next prev next₀ prev₀ mid : ℕ}

/-- A split takes a page, puts the halves and links the leaf behind them back. -/
theorem wp_splitLeaf {Q : InsertResult κ → WriteGuard → Prop} {separator : Result κ} {sep : κ}
    (hview : g.view p = .ok (leafPage rows₀ next₀ prev₀)) (hpb : p ≠ g.bound) (hfits : Fits rows)
    (hpos : pos ≤ rows.length) (hmid : mid ≤ rows.length + 1)
    (hleft : Fits (leftHalf rows pos row mid)) (hright : Fits (rightHalf rows pos row mid))
    (hnext : next < pageNoLimit) (hprev : prev < pageNoLimit) (hsep : separator = .ok sep)
    (herr : pageNoLimit ≤ g.bound + 1 → ∀ e, AllocFault e → E e g)
    (h : ∀ g₁ g₂ g₃, Allocates g g₁ →
      Puts g₁ g₂ p (leafPage (leftHalf rows pos row mid) g.bound prev) →
      Puts g₂ g₃ g.bound (leafPage (rightHalf rows pos row mid) next p) →
      wp (linkBack next g.bound) (fun _ g' => Q (.split g.bound sep) g') E g₃) :
    wp (splitLeaf p (leafPage rows next prev) pos row mid separator) Q E g := by
  have hlen : (rows.insertIdx pos row).length = rows.length + 1 :=
    List.length_insertIdx_of_le_length hpos row
  rw [splitLeaf, numRows_leafPage hfits, nextLeaf_leafPage hnext, prevLeaf_leafPage hprev]
  refine wp_bind.mpr (wp_allocatePage (fun g₁ halloc => ?_) herr)
  rw [wp_bind, wp_lift_ok hsep, wp_bind]
  obtain ⟨leftPage, hwriteLeft, hlaysLeft⟩ := @writeLeafRange_leafPage _ rows row next prev pos
    rows₀ next₀ prev₀ 0 mid hfits hpos hmid hleft
  rw [← halloc.view_of_ne hpb] at hview
  refine wp_modifyPage hview
    (by rw [hwriteLeft, ok_bind, hlaysLeft.toLeafPage, pure_eq_ok]) fun g₂ hputs₂ => ?_
  have hwhole : ((rows.insertIdx pos row).take (rows.length + 1)).drop mid =
      rightHalf rows pos row mid := by
    rw [← hlen, List.take_length]
    rfl
  obtain ⟨rightPage, hwriteRight, hlaysRight⟩ := @writeLeafRange_leafPage _ rows row next prev pos
    [] 0 0 mid (rows.length + 1) hfits hpos le_rfl (hwhole ▸ hright)
  rw [hwhole] at hlaysRight
  rw [wp_bind, newLeaf_eq_leafPage, wp_lift_ok hwriteRight, wp_bind, hlaysRight.toLeafPage']
  refine wp_putPage fun g₃ hputs₃ => ?_
  rw [wp_bind]
  exact h g₁ g₂ g₃ halloc hputs₂ hputs₃

/-- A split whose separator cannot be read has only taken a page. -/
theorem wp_splitLeaf_error {Q : InsertResult κ → WriteGuard → Prop} {separator : Result κ}
    {snapshot : Page} {e : Fault} (hsep : separator = .error e)
    (herr : ∀ e, AllocFault e → E e g) (h : ∀ g₁, Allocates g g₁ → E e g₁) :
    wp (splitLeaf p snapshot pos row mid separator) Q E g := by
  rw [splitLeaf]
  refine wp_bind.mpr (wp_allocatePage (fun g₁ halloc => ?_) fun _ => herr)
  rw [wp_bind, wp_lift_error hsep]
  exact h g₁ halloc

end

/-! ## Branches -/

section

variable {fmt : BranchFormat κ} {children : List ℕ} {keys : List κ} {idx newChild : ℕ} {sep : κ}

omit [Crc32Fast] in
theorem BranchFormat.BranchFits.of_lengths (hlen : children.length = keys.length + 1)
    (hle : keys.length ≤ fmt.maxKeys) (hlimit : ∀ child ∈ children, child < pageNoLimit) :
    fmt.BranchFits children (keys.map fmt.norm) where
  length_eq := by rw [List.length_map, hlen]
  length_le := by rwa [List.length_map]
  lt_limit := hlimit
  norm_eq key hkey := by
    obtain ⟨key', -, rfl⟩ := List.mem_map.mp hkey
    exact fmt.norm_norm key'

/-- The children and keys with one more of each. -/
abbrev moreChildren (children : List ℕ) (idx newChild : ℕ) : List ℕ :=
  children.insertIdx (idx + 1) newChild

abbrev moreKeys (keys : List κ) (idx : ℕ) (sep : κ) : List κ := keys.insertIdx idx sep

/-- A branch with room takes the new child; a full one is split in the middle,
and fails only after its left half is written. -/
theorem wp_insertIntoBranch {Q : InsertResult κ → WriteGuard → Prop}
    (hview : g.view p = .ok (fmt.branchPage children keys)) (hfits : fmt.BranchFits children keys)
    (hidx : idx ≤ keys.length) {mid : ℕ} (hmid : mid = (keys.length + 1) / 2)
    (hroom : keys.length < fmt.maxKeys →
      ∀ g', Puts g g' p (fmt.branchPage (moreChildren children idx newChild)
        (moreKeys keys idx sep)) → Q .fit g')
    (hfull : fmt.maxKeys ≤ keys.length → ∀ splitKey,
      (moreKeys keys idx sep)[mid]? = some splitKey → ∀ g₁ g₂ g₃,
      Puts g g₁ p (fmt.branchPage ((moreChildren children idx newChild).take (mid + 1))
        ((moreKeys keys idx sep).take mid)) →
      Allocates g₁ g₂ →
      Puts g₂ g₃ g.bound (fmt.branchPage ((moreChildren children idx newChild).drop (mid + 1))
        ((moreKeys keys idx sep).drop (mid + 1))) →
      Q (.split g.bound splitKey) g₃)
    (herr : ∀ e g₁, AllocFault e → Puts g g₁ p
      (fmt.branchPage ((moreChildren children idx newChild).take (mid + 1))
        ((moreKeys keys idx sep).take mid)) → E e g₁) :
    wp (insertIntoBranch fmt p idx sep newChild) Q E g := by
  have hlen := hfits.length_eq
  have hle := hfits.length_le
  rw [insertIntoBranch, wp_bind]
  refine wp_readPage hview ?_
  rw [BranchFormat.numRows_branchPage hfits]
  refine wp_ite (fun hlt => ?_) fun hge => ?_
  · obtain ⟨page', hinsert, hpage'⟩ := @BranchFormat.insertBranchEntry_branchPage _ fmt children
      keys _ hfits idx newChild sep hidx hlt
    rw [wp_bind]
    refine wp_modifyPage hview (by rw [hinsert, ok_bind, hpage', pure_eq_ok]) fun g' hputs => ?_
    exact hroom hlt g' hputs
  · have hkeys : (moreKeys keys idx sep).length = keys.length + 1 :=
      List.length_insertIdx_of_le_length hidx sep
    have hchildren : (moreChildren children idx newChild).length = children.length + 1 :=
      List.length_insertIdx_of_le_length (by omega) newChild
    have hlt : mid < (moreKeys keys idx sep).length := by omega
    rw [wp_bind, wp_lift_ok (BranchFormat.collectBranchFlat_branchPage hfits)]
    dsimp only
    rw [wp_bind, wp_lift_ok (BranchFormat.vecInsert_ok hidx), wp_bind,
      wp_lift_ok (BranchFormat.vecInsert_ok (by omega)), hkeys, ← hmid, wp_bind,
      wp_lift_ok (BranchFormat.index_ok hlt), wp_bind]
    obtain ⟨left, hrebuild, -, hleft⟩ := @BranchFormat.rebuildBranchFlat_branchPage _ fmt
      ((moreChildren children idx newChild).take (mid + 1)) ((moreKeys keys idx sep).take mid) _
      children keys (by simp only [List.length_take]; omega) (by simp only [List.length_take]; omega)
    refine wp_modifyPage hview (by rw [hrebuild, ok_bind, hleft, pure_eq_ok]) fun g₁ hputs₁ => ?_
    rw [wp_bind]
    refine wp_allocatePage (fun g₂ halloc => ?_) fun _ e he => herr e g₁ he hputs₁
    rw [hputs₁.bound]
    obtain ⟨right, hrebuild', -, hright⟩ := @BranchFormat.rebuildBranchFlat_branchPage _ fmt
      ((moreChildren children idx newChild).drop (mid + 1))
      ((moreKeys keys idx sep).drop (mid + 1)) _ [] []
      (by simp only [List.length_drop]; omega) (by simp only [List.length_drop]; omega)
    rw [wp_bind, @BranchFormat.newBranch_eq_branchPage _ fmt, wp_lift_ok hrebuild', wp_bind, hright]
    refine wp_putPage fun g₃ hputs₃ => ?_
    exact hfull (Nat.le_of_not_lt hge) _ (List.getElem?_eq_getElem hlt) g₁ g₂ g₃ hputs₁ halloc hputs₃

/-- A new root over the two halves of the old one. -/
theorem wp_growRoot {Q : ℕ → WriteGuard → Prop} {root newPage : ℕ} (hmax : 1 ≤ fmt.maxKeys)
    (herr : pageNoLimit ≤ g.bound + 1 → ∀ e, AllocFault e → E e g)
    (h : ∀ g₁ g₂, Allocates g g₁ → Puts g₁ g₂ g.bound (fmt.branchPage [root, newPage] [sep]) →
      Q g.bound g₂) :
    wp (growRoot fmt root (.split newPage sep)) Q E g := by
  -- the entry and the child are written as a rebuild of the empty branch page writes them
  obtain ⟨page₂, hwrite, hlays⟩ := @BranchFormat.writeEntries_lays _ fmt [root, newPage] [sep] _ _
    [] 0 (@BranchFormat.branchPage_lays _ fmt [] [] _) (by simp) (by simp)
    (by rw [Nat.zero_add]; exact BranchFormat.length_mul_le hmax)
  obtain ⟨page₁, hentry, hchild⟩ := bind_eq_ok.mp
    (show (fmt.writeBranchEntry (fmt.branchPage [] []) 0 root sep >>= fun page =>
      fmt.setBranchChild page 1 newPage) = .ok page₂ from hwrite)
  have hpage : (page₂.setNumRows 1).updateChecksum = fmt.branchPage [root, newPage] [sep] :=
    (hlays.setNumRows 1).updateChecksum
  rw [growRoot]
  refine wp_bind.mpr (wp_allocatePage (fun g₁ halloc => ?_) herr)
  rw [wp_bind, @BranchFormat.newBranch_eq_branchPage _ fmt, wp_lift_ok hentry, wp_bind,
    wp_lift_ok hchild, wp_bind, hpage]
  exact wp_putPage fun g₂ hputs => h g₁ g₂ halloc hputs

omit [Crc32Fast] in
/-- A new tree in an empty file is an empty leaf. -/
theorem exists_created [Crc32Fast] : ∃ g, createTree (PageFile.open []) = .ok 0 g ∧
    g.view 0 = .ok (leafPage [] 0 0) ∧ g.bound = 1 ∧ DirtyBelow g := by
  have hcreate : wp createTree (fun root g => root = 0 ∧ g.view root = .ok (leafPage [] 0 0) ∧
      g.bound = 1 ∧ DirtyBelow g) (fun _ _ => False) (PageFile.open []) := by
    rw [createTree, wp_bind]
    refine wp_allocatePage_of_lt (by decide) (by decide) fun g₁ halloc => ?_
    rw [wp_bind, newLeaf_eq_leafPage]
    refine wp_putPage fun g₂ hputs => ?_
    have hbound : g₁.bound = 1 := halloc.bound
    have hbelow : DirtyBelow (PageFile.open []) := fun q hq => absurd hq (by simp [PageFile.open])
    exact ⟨rfl, hputs.view_self, hputs.bound.trans hbound,
      hputs.dirtyBelow (halloc.dirtyBelow hbelow) (hbound ▸ Nat.one_pos)⟩
  obtain ⟨root, g, hok, rfl, hview, hbound, hbelow⟩ := hcreate.exists_ok
  exact ⟨g, hok, hview, hbound, hbelow⟩

end

end BoogyDb
