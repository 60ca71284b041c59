import BoogyDb.TreeSteps

/-!
# Every page of a tree is a page

The weakest thing that holds of a tree whatever is done to it: there is a set of
pages, each with a height, such that a page of height `0` is a leaf whose rows
fit, a page of height `h + 1` is a branch whose children have height `h`, and a
chain pointer leads to a leaf or nowhere (`WellShaped`).  Nothing is said about
keys, so rows may be anything and a call that fails half-way keeps it too.

An insertion below a page changes only pages of at most its height
(`Extends.frame`), which is why the branch above it is still as it was found.
-/

namespace BoogyDb

open Wp WriteGuard

/-- `height'` has the pages of `height`, and more. -/
def Extends (height height' : ℕ → Option ℕ) : Prop :=
  ∀ p h, height p = some h → height' p = some h

theorem Extends.refl (height : ℕ → Option ℕ) : Extends height height := fun _ _ => id

theorem Extends.trans {height height' height'' : ℕ → Option ℕ} (h₁ : Extends height height')
    (h₂ : Extends height' height'') : Extends height height'' := fun p h hp => h₂ p h (h₁ p h hp)

variable {κ : Type} {fmt : BranchFormat κ} [Crc32Fast]

/-- A leaf page whose rows fit, with a chain pointer to a leaf or nowhere. -/
def IsLeafPage (height : ℕ → Option ℕ) (page : Page) : Prop :=
  ∃ rows next prev, page = leafPage rows next prev ∧ Fits rows ∧ next < pageNoLimit ∧
    prev < pageNoLimit ∧ (next ≠ 0 → height next = some 0)

/-- A branch page over children of height `h`. -/
def IsBranchPage (fmt : BranchFormat κ) (height : ℕ → Option ℕ) (h : ℕ) (page : Page) : Prop :=
  ∃ children keys, page = fmt.branchPage children keys ∧ fmt.BranchFits children keys ∧
    ∀ child ∈ children, height child = some h

def HasHeight (fmt : BranchFormat κ) (height : ℕ → Option ℕ) (page : Page) : ℕ → Prop
  | 0 => IsLeafPage height page
  | h + 1 => IsBranchPage fmt height h page

/-- The pages with a height are pages of that height, but for a hole: a page that
is taken and not yet written. -/
structure WellShaped (fmt : BranchFormat κ) (g : WriteGuard) (height : ℕ → Option ℕ)
    (hole : Option ℕ) : Prop where
  page : ∀ p h, height p = some h → hole ≠ some p →
    ∃ page, g.view p = .ok page ∧ HasHeight fmt height page h
  below : ∀ p h, height p = some h → p < g.bound ∧ p < pageNoLimit

section

variable {height height' : ℕ → Option ℕ} {page : Page} {g g' : WriteGuard}
  {hole : Option ℕ} {p h : ℕ}

theorem IsLeafPage.mono (hpage : IsLeafPage height page) (hext : Extends height height') :
    IsLeafPage height' page := by
  obtain ⟨rows, next, prev, heq, hfits, hnext, hprev, hleaf⟩ := hpage
  exact ⟨rows, next, prev, heq, hfits, hnext, hprev, fun hne => hext _ _ (hleaf hne)⟩

theorem HasHeight.mono (hpage : HasHeight fmt height page h) (hext : Extends height height') :
    HasHeight fmt height' page h := by
  cases h with
  | zero => exact IsLeafPage.mono hpage hext
  | succ h =>
      obtain ⟨children, keys, heq, hfits, hchildren⟩ := hpage
      exact ⟨children, keys, heq, hfits, fun child hc => hext _ _ (hchildren child hc)⟩

/-- A new page has no height yet. -/
theorem WellShaped.bound_none (hI : WellShaped fmt g height hole) : height g.bound = none := by
  cases hb : height g.bound with
  | none => rfl
  | some h => exact absurd (hI.below _ _ hb).1 (lt_irrefl _)

theorem WellShaped.extends_update (hI : WellShaped fmt g height hole) (h : ℕ) :
    Extends height (Function.update height g.bound (some h)) := by
  intro q k hq
  rw [Function.update_of_ne, hq]
  rintro rfl
  rw [hI.bound_none] at hq
  cases hq

theorem WellShaped.allocate (hI : WellShaped fmt g height none) (halloc : Allocates g g') :
    WellShaped fmt g' height none where
  page q k hq _ := by
    have hne : q ≠ g.bound := (hI.below q k hq).1.ne
    rw [halloc.view_of_ne hne]
    exact hI.page q k hq (by simp)
  below q k hq := by
    have hlt := hI.below q k hq
    rw [halloc.bound]
    exact ⟨hlt.1.trans (Nat.lt_succ_self _), hlt.2⟩

/-- The page just allocated is taken at height `h`, and still to be written. -/
theorem WellShaped.take (hI : WellShaped fmt g height none) (halloc : Allocates g g') (h : ℕ) :
    WellShaped fmt g' (Function.update height g.bound (some h)) (some g.bound) where
  page q k hq hne := by
    have hqb : q ≠ g.bound := fun heq => hne (by rw [heq])
    rw [Function.update_of_ne hqb] at hq
    obtain ⟨page, hview, hpage⟩ := hI.page q k hq (by simp)
    rw [halloc.view_of_ne hqb]
    exact ⟨page, hview, hpage.mono (hI.extends_update h)⟩
  below q k hq := by
    rw [halloc.bound]
    by_cases hqb : q = g.bound
    · rw [hqb]
      exact ⟨Nat.lt_succ_self _, halloc.bound_lt⟩
    · rw [Function.update_of_ne hqb] at hq
      have hlt := hI.below q k hq
      exact ⟨hlt.1.trans (Nat.lt_succ_self _), hlt.2⟩

/-- A page is rewritten by one of its own height. -/
theorem WellShaped.put (hI : WellShaped fmt g height hole) (hputs : Puts g g' p page)
    (hp : height p = some h) (hpage : HasHeight fmt height page h) :
    WellShaped fmt g' height hole where
  page q k hq hne := by
    by_cases hqp : q = p
    · subst hqp
      rw [hp] at hq
      cases hq
      exact ⟨page, hputs.view_self, hpage⟩
    · rw [hputs.view_of_ne hqp]
      exact hI.page q k hq hne
  below q k hq := by
    rw [hputs.bound]
    exact hI.below q k hq

/-- The hole is filled by a page of its height. -/
theorem WellShaped.fill (hI : WellShaped fmt g height (some p)) (hputs : Puts g g' p page)
    (hp : height p = some h) (hpage : HasHeight fmt height page h) :
    WellShaped fmt g' height none where
  page q k hq _ := by
    by_cases hqp : q = p
    · subst hqp
      rw [hp] at hq
      cases hq
      exact ⟨page, hputs.view_self, hpage⟩
    · rw [hputs.view_of_ne hqp]
      exact hI.page q k hq fun heq => hqp (Option.some.inj heq).symm
  below q k hq := by
    rw [hputs.bound]
    exact hI.below q k hq

end

/-! ## What an operation leaves -/

/-- From `g` to `g'`: more pages, the shape kept, and every page above height `h`
left alone. -/
structure Reshapes (fmt : BranchFormat κ) (h : ℕ) (g : WriteGuard) (height : ℕ → Option ℕ)
    (g' : WriteGuard) (height' : ℕ → Option ℕ) : Prop where
  «extends» : Extends height height'
  shaped : WellShaped fmt g' height' none
  frame : ∀ q k, height q = some k → h < k → g'.view q = g.view q

/-- A fault that is no panic, in a state of the same shape. -/
def FailsSafely (fmt : BranchFormat κ) (h : ℕ) (g : WriteGuard) (height : ℕ → Option ℕ)
    (e : Fault) (g' : WriteGuard) : Prop :=
  e ≠ .panic ∧ ∃ height', Reshapes fmt h g height g' height'

section

variable {height height' height'' : ℕ → Option ℕ} {g g' g'' : WriteGuard} {h k : ℕ} {e : Fault}

theorem Reshapes.refl (hI : WellShaped fmt g height none) : Reshapes fmt h g height g height :=
  ⟨.refl height, hI, fun _ _ _ _ => rfl⟩

theorem Reshapes.trans (h₁ : Reshapes fmt h g height g' height')
    (h₂ : Reshapes fmt h g' height' g'' height'') : Reshapes fmt h g height g'' height'' where
  «extends» := h₁.extends.trans h₂.extends
  shaped := h₂.shaped
  frame q k hq hk := by rw [h₂.frame q k (h₁.extends q k hq) hk, h₁.frame q k hq hk]

theorem Reshapes.mono (hr : Reshapes fmt h g height g' height') (hle : h ≤ k) :
    Reshapes fmt k g height g' height' :=
  ⟨hr.extends, hr.shaped, fun q j hq hj => hr.frame q j hq (hle.trans_lt hj)⟩

theorem FailsSafely.mono (hf : FailsSafely fmt h g height e g') (hle : h ≤ k) :
    FailsSafely fmt k g height e g' :=
  ⟨hf.1, hf.2.choose, hf.2.choose_spec.mono hle⟩

theorem FailsSafely.trans (h₁ : Reshapes fmt h g height g' height')
    (h₂ : FailsSafely fmt h g' height' e g'') : FailsSafely fmt h g height e g'' :=
  ⟨h₂.1, h₂.2.choose, h₁.trans h₂.2.choose_spec⟩

/-- One put at height `h` or below. -/
theorem Reshapes.put {p : ℕ} {page : Page} (hI : WellShaped fmt g height none)
    (hputs : Puts g g' p page) (hp : height p = some h) (hpage : HasHeight fmt height page h) :
    Reshapes fmt h g height g' height where
  «extends» := .refl height
  shaped := hI.put hputs hp hpage
  frame q k hq hk := hputs.view_of_ne (by
    rintro rfl
    rw [hp] at hq
    cases hq
    exact lt_irrefl _ hk)

theorem Reshapes.allocate (hI : WellShaped fmt g height none) (halloc : Allocates g g') :
    Reshapes fmt h g height g' height where
  «extends» := .refl height
  shaped := hI.allocate halloc
  frame q k hq _ := halloc.view_of_ne (hI.below q k hq).1.ne

end

/-! ## Leaf operations -/

section

variable {height : ℕ → Option ℕ} {g : WriteGuard} {p pos : ℕ} {row : List UInt8}
  {rows : List (List UInt8)} {next prev : ℕ}

theorem WellShaped.leaf (hI : WellShaped fmt g height none) (hp : height p = some 0) :
    ∃ rows next prev, g.view p = .ok (leafPage rows next prev) ∧ Fits rows ∧
      next < pageNoLimit ∧ prev < pageNoLimit ∧ (next ≠ 0 → height next = some 0) := by
  obtain ⟨page, hview, rows, next, prev, rfl, hrest⟩ := hI.page p 0 hp (by simp)
  exact ⟨rows, next, prev, hview, hrest⟩

theorem WellShaped.branch (hI : WellShaped fmt g height none) {h : ℕ}
    (hp : height p = some (h + 1)) :
    ∃ children keys, g.view p = .ok (fmt.branchPage children keys) ∧
      fmt.BranchFits children keys ∧ ∀ child ∈ children, height child = some h := by
  obtain ⟨page, hview, children, keys, rfl, hrest⟩ := hI.page p (h + 1) hp (by simp)
  exact ⟨children, keys, hview, hrest⟩

/-- A row more in a leaf with room for it. -/
theorem wp_insertInPlace_shaped (hI : WellShaped fmt g height none) (hp : height p = some 0)
    (hfits : Fits rows) (hpos : pos ≤ rows.length) (hfits' : Fits (rows.insertIdx pos row))
    (hnext : next < pageNoLimit) (hprev : prev < pageNoLimit)
    (hleaf : next ≠ 0 → height next = some 0) :
    wp (insertInPlace p (leafPage rows next prev) pos row)
      (fun _ g' => Reshapes fmt 0 g height g' height) (FailsSafely fmt 0 g height) g := by
  obtain ⟨rows₀, next₀, prev₀, hview, -⟩ := hI.leaf hp
  exact wp_insertInPlace hview hfits hpos hfits' hnext hprev fun g' hputs =>
    .put hI hputs hp ⟨_, next, prev, rfl, hfits', hnext, hprev, hleaf⟩

/-- A row less. -/
theorem wp_removeInPlace_shaped (hI : WellShaped fmt g height none) (hp : height p = some 0)
    (hfits : Fits rows) (hpos : pos < rows.length) (hnext : next < pageNoLimit)
    (hprev : prev < pageNoLimit) (hleaf : next ≠ 0 → height next = some 0) :
    wp (removeInPlace p (leafPage rows next prev) pos)
      (fun _ g' => Reshapes fmt 0 g height g' height) (FailsSafely fmt 0 g height) g := by
  obtain ⟨rows₀, next₀, prev₀, hview, -⟩ := hI.leaf hp
  exact wp_removeInPlace hview hfits hpos hnext hprev fun g' hputs =>
    .put hI hputs hp ⟨_, next, prev, rfl, hfits.sublist (List.eraseIdx_sublist rows pos), hnext,
      hprev, hleaf⟩

/-- What an insertion into a subtree of height `h` leaves: a new page, if it
reports one, has this height too. -/
def SplitsAt (fmt : BranchFormat κ) (h : ℕ) (g : WriteGuard) (height : ℕ → Option ℕ)
    (r : InsertResult κ) (g' : WriteGuard) : Prop :=
  ∃ height', Reshapes fmt h g height g' height' ∧
    ∀ newPage sep, r = .split newPage sep → height' newPage = some h

/-- A split whose halves fit. -/
theorem wp_splitLeaf_shaped {mid : ℕ} {separator : Result κ} (hI : WellShaped fmt g height none)
    (hp : height p = some 0) (hfits : Fits rows) (hpos : pos ≤ rows.length)
    (hmid : mid ≤ rows.length + 1) (hleft : Fits (leftHalf rows pos row mid))
    (hright : Fits (rightHalf rows pos row mid)) (hnext : next < pageNoLimit)
    (hprev : prev < pageNoLimit) (hleaf : next ≠ 0 → height next = some 0)
    (hsep : separator ≠ .error .panic) :
    wp (splitLeaf p (leafPage rows next prev) pos row mid separator) (SplitsAt fmt 0 g height)
      (FailsSafely fmt 0 g height) g := by
  have herr : ∀ e, AllocFault e → FailsSafely fmt 0 g height e g :=
    fun e he => ⟨he.ne_panic, height, .refl hI⟩
  cases hsepv : separator with
  | error e =>
      refine wp_splitLeaf_error rfl herr fun g₁ halloc => ?_
      exact ⟨fun heq => hsep (by rw [hsepv, heq]), height, .allocate hI halloc⟩
  | ok sep =>
  obtain ⟨rows₀, next₀, prev₀, hview, -⟩ := hI.leaf hp
  have hpb : p ≠ g.bound := (hI.below p 0 hp).1.ne
  refine wp_splitLeaf hview hpb hfits hpos hmid hleft hright hnext hprev rfl (fun _ => herr) ?_
  intro g₁ g₂ g₃ halloc hputs₂ hputs₃
  -- the right page is taken before it is written: the left page points to it
  set height' := Function.update height g.bound (some 0) with hheight'
  have hext : Extends height height' := hI.extends_update 0
  have hnew : height' g.bound = some 0 := Function.update_self ..
  have hI₂ : WellShaped fmt g₂ height' (some g.bound) := (hI.take halloc 0).put hputs₂ (hext p 0 hp)
    ⟨_, g.bound, prev, rfl, hleft, halloc.bound_lt, hprev, fun _ => hnew⟩
  have hI₃ : WellShaped fmt g₃ height' none := hI₂.fill hputs₃ hnew
    ⟨_, next, p, rfl, hright, hnext, (hI.below p 0 hp).2, fun hne => hext next 0 (hleaf hne)⟩
  have hr₃ : Reshapes fmt 0 g height g₃ height' := by
    refine ⟨hext, hI₃, fun q k hq hk => ?_⟩
    have hqb : q ≠ g.bound := (hI.below q k hq).1.ne
    have hqp : q ≠ p := by
      rintro rfl
      rw [hp] at hq
      cases hq
      exact lt_irrefl _ hk
    rw [hputs₃.view_of_ne hqb, hputs₂.view_of_ne hqp, halloc.view_of_ne hqb]
  have hdone : ∀ g', Reshapes fmt 0 g height g' height' →
      SplitsAt fmt 0 g height (.split g.bound sep) g' := by
    intro g' hr
    refine ⟨height', hr, fun newPage sep' heq => ?_⟩
    cases heq
    exact hnew
  by_cases hne : next = 0
  · exact @wp_linkBack _ _ g₃ [] next 0 0 _ g.bound (absurd hne) (fun _ => hdone g₃ hr₃)
      (absurd hne)
  · obtain ⟨rowsn, nextn, prevn, hviewn, hfitsn, hnextn, -, hleafn⟩ :=
      hI₃.leaf (hext next 0 (hleaf hne))
    refine wp_linkBack (fun _ => hviewn) (fun hzero => absurd hzero hne) fun _ g₄ hputs₄ => ?_
    exact hdone g₄ (hr₃.trans (.put hI₃ hputs₄ (hext next 0 (hleaf hne))
      ⟨rowsn, nextn, g.bound, rfl, hfitsn, hnextn, halloc.bound_lt, hleafn⟩))

end

/-! ## Branch operations -/

section

variable {height : ℕ → Option ℕ} {g : WriteGuard} {p h : ℕ}

theorem isBranchPage_of_lengths {children : List ℕ} {keys : List κ}
    (hI : WellShaped fmt g height none) (hlen : children.length = keys.length + 1)
    (hle : keys.length ≤ fmt.maxKeys) (hchildren : ∀ child ∈ children, height child = some h) :
    IsBranchPage fmt height h (fmt.branchPage children keys) :=
  ⟨children, keys.map fmt.norm, (BranchFormat.branchPage_map_norm children keys).symm,
    .of_lengths hlen hle fun child hc => (hI.below child h (hchildren child hc)).2, hchildren⟩

theorem wp_insertIntoBranch_shaped {idx newChild : ℕ} {sep : κ} {children : List ℕ} {keys : List κ}
    (hI : WellShaped fmt g height none) (hp : height p = some (h + 1))
    (hview : g.view p = .ok (fmt.branchPage children keys)) (hfits : fmt.BranchFits children keys)
    (hchildren : ∀ child ∈ children, height child = some h) (hidx : idx ≤ keys.length)
    (hnew : height newChild = some h) :
    wp (insertIntoBranch fmt p idx sep newChild) (SplitsAt fmt (h + 1) g height)
      (FailsSafely fmt (h + 1) g height) g := by
  have hlen := hfits.length_eq
  have hle := hfits.length_le
  have hkeys : (moreKeys keys idx sep).length = keys.length + 1 :=
    List.length_insertIdx_of_le_length hidx sep
  have hlenc : (moreChildren children idx newChild).length = children.length + 1 :=
    List.length_insertIdx_of_le_length (by omega) newChild
  have hmore : ∀ child ∈ moreChildren children idx newChild, height child = some h := by
    intro child hc
    rcases List.eq_or_mem_of_mem_insertIdx hc with rfl | hc
    · exact hnew
    · exact hchildren child hc
  -- the left half is written in place, in both the split and its faults
  have hleft : ∀ g₁, Puts g g₁ p (fmt.branchPage
      ((moreChildren children idx newChild).take ((keys.length + 1) / 2 + 1))
      ((moreKeys keys idx sep).take ((keys.length + 1) / 2))) →
        keys.length ≤ fmt.maxKeys → Reshapes fmt (h + 1) g height g₁ height := by
    intro g₁ hputs _
    refine .put hI hputs hp (isBranchPage_of_lengths hI ?_ ?_ fun child hc => ?_)
    · simp only [List.length_take]
      omega
    · simp only [List.length_take]
      omega
    · exact hmore child (List.mem_of_mem_take hc)
  refine wp_insertIntoBranch hview hfits hidx rfl ?_ ?_ ?_
  · intro hroom g' hputs
    refine ⟨height, .put hI hputs hp (isBranchPage_of_lengths hI ?_ ?_ hmore), fun _ _ heq => ?_⟩
    · omega
    · omega
    · cases heq
  -- the right half goes to a new page, which gets the height of the branch
  · intro _ splitKey hsplit g₁ g₂ g₃ hputs₁ halloc hputs₃
    have hr₁ := hleft g₁ hputs₁ hle
    have hI₁ := hr₁.shaped
    have hnone : height g.bound = none := hI.bound_none
    have hbound := hputs₁.bound
    set height' := Function.update height g.bound (some (h + 1)) with hheight'
    have hext : Extends height height' := hI.extends_update (h + 1)
    have htake : WellShaped fmt g₂ height' (some g.bound) := by
      have := hI₁.take halloc (h + 1)
      rwa [hbound] at this
    have hnew' : height' g.bound = some (h + 1) := Function.update_self ..
    have hI₃ : WellShaped fmt g₃ height' none := by
      refine htake.fill hputs₃ hnew' ?_
      obtain ⟨children', keys', heq, hfits', hch'⟩ := isBranchPage_of_lengths hI
        (show ((moreChildren children idx newChild).drop ((keys.length + 1) / 2 + 1)).length =
          ((moreKeys keys idx sep).drop ((keys.length + 1) / 2 + 1)).length + 1 by
            simp only [List.length_drop]
            omega)
        (by simp only [List.length_drop]; omega)
        (fun child hc => hmore child (List.mem_of_mem_drop hc))
      exact ⟨children', keys', heq, hfits', fun child hc => hext _ _ (hch' child hc)⟩
    refine ⟨height', ⟨hext, hI₃, fun q k hq hk => ?_⟩, fun newPage sep' heq => ?_⟩
    · have hqb : q ≠ g.bound := (hI.below q k hq).1.ne
      rw [hputs₃.view_of_ne hqb, halloc.view_of_ne (by rwa [hbound]), hr₁.frame q k hq hk]
    · cases heq
      exact hnew'
  · intro e g₁ he hputs₁
    exact ⟨he.ne_panic, height, hleft g₁ hputs₁ hle⟩

section

variable [LinearOrder κ] {depthError : String} {key : κ}
  {intoLeaf : ℕ → Page → StateResult WriteGuard (InsertResult κ)}

/-- **An insertion keeps the shape**, when the insertion into the leaf it descends
to does. -/
theorem wp_insertRecursive_shaped (fuel : ℕ) (hI : WellShaped fmt g height none)
    (hp : height p = some h)
    (hintoLeaf : ∀ pageNo page, height pageNo = some 0 →
      descend depthError g.view (routeKey fmt key) fuel p = .ok (pageNo, page) →
      wp (intoLeaf pageNo page) (SplitsAt fmt 0 g height) (FailsSafely fmt 0 g height) g) :
    wp (insertRecursive fmt depthError key intoLeaf fuel p) (SplitsAt fmt h g height)
      (FailsSafely fmt h g height) g := by
  induction fuel generalizing p h with
  | zero => exact ⟨by simp, height, .refl hI⟩
  | succ fuel ih =>
      rw [insertRecursive, wp_bind]
      cases h with
      | zero =>
          obtain ⟨rows, next, prev, hview, -⟩ := hI.leaf hp
          refine wp_readPage hview (wp_ite (fun _ => ?_) fun hnot => ?_)
          · refine hintoLeaf p _ hp ?_
            rw [descend, hview, ok_bind, if_pos isLeaf_leafPage, pure_eq_ok]
          · exact absurd isLeaf_leafPage hnot
      | succ h =>
          obtain ⟨children, keys, hview, hfits, hchildren⟩ := hI.branch hp
          refine wp_readPage hview
            (wp_ite (fun hyes => absurd hyes not_isLeaf_branchPage) fun _ => ?_)
          rw [wp_bind, wp_lift_ok (BranchFormat.findChild_branchPage hfits key)]
          have hchild : height (getElem children (FencedTree.childIndex keys key)
              (childIndex_lt hfits key)) = some h := hchildren _ (List.getElem_mem _)
          have hbelow := @ih _ h hchild fun pageNo page hpage hdescend => hintoLeaf pageNo page
            hpage ((descend_branch hview (routeKey_branchPage hfits key)).trans hdescend)
          refine wp_bind.mpr (hbelow.mono ?_ fun e g' hf => hf.mono (Nat.le_succ h))
          rintro r g' ⟨height', hr, hnew⟩
          cases r with
          | fit => exact ⟨height', hr.mono (Nat.le_succ h), fun _ _ heq => by cases heq⟩
          | split newPage sep =>
              -- the child's insertion left this branch as it was found
              have hview' : g'.view p = .ok (fmt.branchPage children keys) := by
                rw [hr.frame p (h + 1) hp (Nat.lt_succ_self h), hview]
              have hbranch := @wp_insertIntoBranch_shaped _ _ _ _ _ p h _ _ sep _ _ hr.shaped
                (hr.extends p _ hp) hview' hfits
                (fun child hc => hr.extends _ _ (hchildren child hc))
                (FencedTree.childIndex_le keys key) (hnew newPage sep rfl)
              have hr' := hr.mono (Nat.le_succ h)
              refine hbranch.mono ?_ fun e g'' hf => .trans hr' hf
              rintro r' g'' ⟨height'', hr'', hnew''⟩
              exact ⟨height'', hr'.trans hr'', hnew''⟩

end

/-- A grown root is one level higher. -/
theorem wp_growRoot_shaped {r : InsertResult κ} (hI : WellShaped fmt g height none)
    (hp : height p = some h) (hnew : ∀ newPage sep, r = .split newPage sep →
      height newPage = some h) (hmax : 1 ≤ fmt.maxKeys) :
    wp (growRoot fmt p r)
      (fun root g' => ∃ height', Extends height height' ∧ WellShaped fmt g' height' none ∧
        ∃ h', height' root = some h')
      (FailsSafely fmt h g height) g := by
  cases r with
  | fit => exact ⟨height, .refl height, hI, h, hp⟩
  | split newPage sep =>
      refine wp_growRoot hmax (fun _ e he => ⟨he.ne_panic, height, .refl hI⟩) fun g₁ g₂ halloc hputs => ?_
      have hext := hI.extends_update (h + 1)
      have hnew' : Function.update height g.bound (some (h + 1)) g.bound = some (h + 1) :=
        Function.update_self ..
      refine ⟨_, hext, (hI.take halloc (h + 1)).fill hputs hnew' ?_, h + 1, hnew'⟩
      have hbranch := @isBranchPage_of_lengths _ fmt _ _ _ h [p, newPage] [sep] hI rfl hmax
      refine HasHeight.mono (hbranch fun child hc => ?_) hext
      rcases List.mem_pair.mp hc with rfl | rfl
      · exact hp
      · exact hnew _ sep rfl

end

end BoogyDb
