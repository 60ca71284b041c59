import BoogyDb.TreeGrowth

/-!
# Ordered trees

`TreeOf` is the whole invariant of a tree whose operations all succeed: its pages
span the leaves, the leaf pages hold the entries of the leaves and are linked in
their order, the entries are in order and within the fences, and no page is used
twice.  It is parametric in the branch format and in how an entry is laid out as
a row (`cell`), so both trees of the engine are instances.

What the leaf code of a tree does to one leaf is a `LeafStep`; `wp_insert_tree`
lifts it to the tree.
-/

namespace BoogyDb

open Wp WriteGuard FencedTree

variable {κ α : Type} [Crc32Fast]

/-! ## The leaf chain -/

/-- The rows of a leaf. -/
def rowsOf (cell : κ × α → List UInt8) (l : Leaf κ α) : List (List UInt8) := l.entries.map cell

/-- The page behind, where `leaves` come next and `after` behind them. -/
def nextPage (leaves : List (Leaf κ α)) (after : ℕ) : ℕ :=
  match leaves with
  | [] => after
  | l :: _ => l.page

/-- The page before, where `leaves` come last and `before` before them. -/
def lastPage (before : ℕ) : List (Leaf κ α) → ℕ
  | [] => before
  | l :: leaves => lastPage l.page leaves

/-- The page of the leaf holds its entries and points to `prev` and `next`. -/
structure LeafAt (cell : κ × α → List UInt8) (v : ℕ → Result Page) (l : Leaf κ α)
    (prev next : ℕ) : Prop where
  view : v l.page = .ok (leafPage (rowsOf cell l) next prev)
  fits : Fits (rowsOf cell l)

/-- The leaves are on their pages, each linked to the next and the one before. -/
def Chained (cell : κ × α → List UInt8) (v : ℕ → Result Page) :
    ℕ → List (Leaf κ α) → ℕ → Prop
  | _, [], _ => True
  | before, l :: leaves, after =>
      LeafAt cell v l before (nextPage leaves after) ∧ Chained cell v l.page leaves after

section

variable {cell : κ × α → List UInt8} {v v' : ℕ → Result Page}
  {leaves leaves' pre post : List (Leaf κ α)} {l : Leaf κ α} {before after : ℕ}

omit [Crc32Fast] in
theorem nextPage_append (leaves leaves' : List (Leaf κ α)) (after : ℕ) :
    nextPage (leaves ++ leaves') after = nextPage leaves (nextPage leaves' after) := by
  cases leaves with
  | nil => rfl
  | cons l leaves => rfl

omit [Crc32Fast] in
theorem lastPage_append (leaves leaves' : List (Leaf κ α)) (before : ℕ) :
    lastPage before (leaves ++ leaves') = lastPage (lastPage before leaves) leaves' := by
  induction leaves generalizing before with
  | nil => rfl
  | cons l leaves ih => exact ih l.page

omit [Crc32Fast] in
theorem lastPage_mem (leaves : List (Leaf κ α)) (before : ℕ) :
    lastPage before leaves = before ∨ lastPage before leaves ∈ leaves.map Leaf.page := by
  induction leaves generalizing before with
  | nil => exact .inl rfl
  | cons l leaves ih =>
      refine .inr ?_
      rcases ih l.page with heq | hmem
      · rw [lastPage, heq]
        exact List.mem_cons_self
      · exact List.mem_cons_of_mem _ hmem

theorem chained_append : Chained cell v before (leaves ++ leaves') after ↔
    Chained cell v before leaves (nextPage leaves' after) ∧
      Chained cell v (lastPage before leaves) leaves' after := by
  induction leaves generalizing before with
  | nil => exact ⟨fun h => ⟨trivial, h⟩, And.right⟩
  | cons l leaves ih =>
      rw [List.cons_append, Chained, Chained, nextPage_append, ih, and_assoc]
      rfl

/-- A leaf of the chain, with what comes before and next. -/
theorem Chained.leafAt (h : Chained cell v before (pre ++ l :: post) after) :
    LeafAt cell v l (lastPage before pre) (nextPage post after) := (chained_append.mp h).2.1

theorem Chained.congr (h : Chained cell v before leaves after)
    (heq : ∀ l ∈ leaves, v' l.page = v l.page) : Chained cell v' before leaves after := by
  induction leaves generalizing before with
  | nil => trivial
  | cons l leaves ih =>
      obtain ⟨⟨hview, hfits⟩, hrest⟩ := h
      rw [List.forall_mem_cons] at heq
      exact ⟨⟨by rw [heq.1, hview], hfits⟩, ih hrest heq.2⟩

end

/-! ## The invariant -/

structure TreeOf (fmt : BranchFormat κ) [LinearOrder κ] (cell : κ × α → List UInt8)
    (g : WriteGuard) (root : ℕ) (leaves : List (Leaf κ α)) (branches : List ℕ) : Prop where
  spans : ∃ d, Spans (IsBranch fmt g.view) d ⟨⊥, root, leaves.map Leaf.span, branches⟩
  chained : Chained cell g.view 0 leaves 0
  ordered : Ordered leaves
  nodup : (leaves.map Leaf.page ++ branches).Nodup
  below : ∀ p ∈ leaves.map Leaf.page ++ branches, p < g.bound ∧ p < pageNoLimit
  tail_ne : ∀ p ∈ (leaves.map Leaf.page).tail, p ≠ 0

section

variable [LinearOrder κ] {fmt : BranchFormat κ} {cell : κ × α → List UInt8} {g g' : WriteGuard}
  {root : ℕ} {leaves pre post : List (Leaf κ α)} {l : Leaf κ α} {branches pages : List ℕ}
  {key : κ}

/-- The pages of a tree, and nothing else, decide that it is one. -/
theorem TreeOf.congr (h : TreeOf fmt cell g root leaves branches)
    (heq : ∀ p ∈ leaves.map Leaf.page ++ branches, g'.view p = g.view p)
    (hbound : g.bound ≤ g'.bound) : TreeOf fmt cell g' root leaves branches where
  spans := by
    obtain ⟨d, hspans⟩ := h.spans
    exact ⟨d, spans_congr hspans fun p hp => heq p (List.mem_append_right _ hp)⟩
  chained := h.chained.congr fun l hl => heq _ (List.mem_append_left _ (List.mem_map_of_mem hl))
  ordered := h.ordered
  nodup := h.nodup
  below p hp := ⟨(h.below p hp).1.trans_le hbound, (h.below p hp).2⟩
  tail_ne := h.tail_ne

theorem TreeOf.root_mem (h : TreeOf fmt cell g root leaves branches) :
    root ∈ leaves.map Leaf.page ++ branches := by
  obtain ⟨d, hspans⟩ := h.spans
  rcases hspans.page_mem with hmem | hmem
  · rw [List.map_map] at hmem
    exact List.mem_append_left _ hmem
  · exact List.mem_append_right _ hmem

/-- A page behind a leaf is a page number. -/
theorem TreeOf.nextPage_lt (h : TreeOf fmt cell g root (pre ++ l :: post) branches) :
    nextPage post 0 < pageNoLimit := by
  cases post with
  | nil => exact Nat.two_pow_pos _
  | cons q post =>
      refine (h.below q.page (List.mem_append_left _ (List.mem_map_of_mem ?_))).2
      exact List.mem_append_right _ (List.mem_cons_of_mem _ List.mem_cons_self)

/-- A page before a leaf is a page number. -/
theorem TreeOf.lastPage_lt (h : TreeOf fmt cell g root (pre ++ post) branches) :
    lastPage 0 pre < pageNoLimit := by
  rcases lastPage_mem pre 0 with heq | hmem
  · rw [heq]
    exact Nat.two_pow_pos _
  · refine (h.below _ (List.mem_append_left _ ?_)).2
    rw [List.map_append]
    exact List.mem_append_left _ hmem

/-- It is not `0`, unless the leaf is the last one. -/
theorem TreeOf.nextPage_ne (h : TreeOf fmt cell g root (pre ++ l :: post) branches)
    (hne : post ≠ []) : nextPage post 0 ≠ 0 := by
  cases post with
  | nil => exact absurd rfl hne
  | cons q post =>
      refine h.tail_ne q.page ?_
      cases pre with
      | nil => exact List.mem_cons_self
      | cons a pre =>
          simp only [List.cons_append, List.map_cons, List.tail_cons, List.map_append]
          exact List.mem_append_right _ (List.mem_cons_of_mem _ List.mem_cons_self)

omit [Crc32Fast] in
/-- A located leaf with its entries. -/
theorem Located.exists_leaf {pre' post' : List (WithBot κ × ℕ)} {leaf : WithBot κ × ℕ}
    (h : Located (leaves.map Leaf.span) key pre' leaf post') :
    ∃ pre l post, leaves = pre ++ l :: post ∧ pre.map Leaf.span = pre' ∧ l.span = leaf ∧
      post.map Leaf.span = post' ∧ l.fence ≤ key ∧ ∀ q ∈ post, (key : WithBot κ) < q.fence := by
  obtain ⟨pre, rest, rfl, rfl, hrest⟩ := List.map_eq_append_iff.mp h.eq
  obtain ⟨l, post, rfl, rfl, rfl⟩ := List.map_eq_cons_iff.mp hrest
  exact ⟨pre, l, post, rfl, rfl, rfl, rfl, h.le, fun q hq => h.lt _ (List.mem_map_of_mem hq)⟩

/-- A tree is not deeper than its page numbers allow. -/
theorem TreeOf.depth_lt (h : TreeOf fmt cell g root leaves branches) {d : ℕ}
    (hspans : Spans (IsBranch fmt g.view) d ⟨⊥, root, leaves.map Leaf.span, branches⟩) :
    d < maxTreeDepth := by
  have hpow := hspans.two_pow_le
  rw [List.length_map] at hpow
  have hnodup := (List.nodup_append.mp h.nodup).1
  have hsub : (leaves.map Leaf.page).Subperm (List.range pageNoLimit) :=
    List.subperm_of_subset hnodup fun p hp =>
      List.mem_range.mpr (h.below p (List.mem_append_left _ hp)).2
  have hlen := hsub.length_le
  rw [List.length_map, List.length_range] at hlen
  by_contra hge
  have hle : 2 ^ maxTreeDepth ≤ 2 ^ d := Nat.pow_le_pow_right (by decide) (Nat.le_of_not_lt hge)
  have hmax : pageNoLimit < 2 ^ maxTreeDepth := by decide
  omega

/-! ## Descending -/

/-- **A descent by a key ends in the leaf it belongs to.** -/
theorem descend_located {depthError : String} {read : ℕ → Result Page} {d : ℕ} {s : Segment κ}
    (fuel : ℕ) (hspans : Spans (IsBranch fmt read) d s) (hinc : Increasing s.leaves)
    (hkey : s.fence ≤ key) (hfuel : d < fuel)
    (hleaf : ∀ leaf ∈ s.leaves, ∃ rows next prev, read leaf.2 = .ok (leafPage rows next prev)) :
    ∃ pre leaf post page, Located s.leaves key pre leaf post ∧ read leaf.2 = .ok page ∧
      descend depthError read (routeKey fmt key) fuel s.page = .ok (leaf.2, page) := by
  induction d generalizing s fuel with
  | zero =>
      obtain ⟨fuel, rfl⟩ := Nat.exists_eq_succ_of_ne_zero (Nat.ne_of_gt hfuel)
      obtain ⟨hleaves, -⟩ := hspans
      obtain ⟨rows, next, prev, hread⟩ := hleaf (s.fence, s.page) (by
        rw [hleaves]
        exact List.mem_cons_self)
      exact ⟨[], (s.fence, s.page), [], _, ⟨hleaves, hkey, by simp⟩, hread, descend_leaf hread⟩
  | succ d ih =>
      obtain ⟨fuel, rfl⟩ := Nat.exists_eq_succ_of_ne_zero (Nat.ne_of_gt (Nat.zero_lt_of_lt hfuel))
      obtain ⟨before, t, after, keys, hj, hidx, hsegs, htkey, hafter⟩ := hspans.open hinc hkey
      obtain ⟨hview, hfits⟩ := hj.page
      have hsub : t.leaves.Sublist s.leaves := by
        rw [hj.leaves, List.flatMap_append, List.flatMap_cons]
        exact (List.sublist_append_left _ _).trans (List.sublist_append_right _ _)
      have hroute : routeKey fmt key (fmt.branchPage
          ((before ++ t :: after).map Segment.page) keys) = .ok t.page := by
        obtain ⟨_, hchild⟩ := List.getElem?_eq_some_iff.mp (getElem?_routed hidx)
        rw [routeKey_branchPage hfits key, hchild]
      obtain ⟨pre, leaf, post, page, hloc, hread, hdescend⟩ := ih fuel
        (hsegs t (List.mem_append_right _ List.mem_cons_self)) (hinc.sublist hsub) htkey
        (Nat.lt_of_succ_lt_succ hfuel) fun leaf hl => hleaf leaf (hsub.subset hl)
      refine ⟨_, leaf, _, page, hj.leaves ▸ Located.lift hloc hafter, hread, ?_⟩
      rw [descend_branch hview hroute, hdescend]

omit [LinearOrder κ] in
/-- The descent along the leftmost children ends in the first leaf. -/
theorem descend_first {depthError : String} {read : ℕ → Result Page} {d : ℕ} {s : Segment κ}
    (fuel : ℕ) (hspans : Spans (IsBranch fmt read) d s) (hfuel : d < fuel)
    (hleaf : ∀ leaf ∈ s.leaves, ∃ rows next prev, read leaf.2 = .ok (leafPage rows next prev)) :
    ∃ leaf rest page, s.leaves = leaf :: rest ∧
      descend depthError read (routeFirst fmt) fuel s.page = .ok (leaf.2, page) := by
  induction d generalizing s fuel with
  | zero =>
      obtain ⟨fuel, rfl⟩ := Nat.exists_eq_succ_of_ne_zero (Nat.ne_of_gt hfuel)
      obtain ⟨hleaves, -⟩ := hspans
      obtain ⟨rows, next, prev, hread⟩ := hleaf (s.fence, s.page) (by
        rw [hleaves]
        exact List.mem_cons_self)
      exact ⟨(s.fence, s.page), [], _, hleaves, descend_leaf hread⟩
  | succ d ih =>
      obtain ⟨fuel, rfl⟩ := Nat.exists_eq_succ_of_ne_zero (Nat.ne_of_gt (Nat.zero_lt_of_lt hfuel))
      obtain ⟨segs, keys, hj, hsegs⟩ := hspans
      obtain ⟨hview, hfits⟩ := hj.page
      obtain ⟨t, segs, rfl⟩ := List.exists_cons_of_length_eq_add_one hj.length_eq
      obtain ⟨leaf, rest, page, hleaves, hdescend⟩ := ih fuel (hsegs t List.mem_cons_self)
        (Nat.lt_of_succ_lt_succ hfuel) fun leaf hl => hleaf leaf (by
          rw [hj.leaves, List.flatMap_cons]
          exact List.mem_append_left _ hl)
      refine ⟨leaf, rest ++ segs.flatMap Segment.leaves, page, ?_, ?_⟩
      · rw [hj.leaves, List.flatMap_cons, hleaves, List.cons_append]
      · rw [descend_branch hview (routeFirst_branchPage hfits)]
        exact hdescend

/-! ## Inserting -/

/-- What the leaf code made of the leaf `l` between `pre` and `post`. -/
structure LeafStep (fmt : BranchFormat κ) (cell : κ × α → List UInt8) (g : WriteGuard)
    (pre post : List (Leaf κ α)) (l : Leaf κ α) (r : InsertResult κ) (g₁ : WriteGuard)
    (new : List (Leaf κ α)) : Prop where
  spans : new.map Leaf.span = newSpans fmt l.span r
  touches : Touches g g₁ ((pre ++ l :: post).map Leaf.page)
  chained : Chained cell g₁.view 0 (pre ++ new ++ post) 0
  ordered : Ordered (pre ++ new ++ post)
  fresh : ∀ newPage sep, r = .split newPage sep →
    g.bound ≤ newPage ∧ newPage < g₁.bound ∧ newPage < pageNoLimit

/-- The page a split took, if any. -/
def InsertResult.newPages : InsertResult κ → List ℕ
  | .fit => []
  | .split newPage _ => [newPage]

omit [Crc32Fast] [LinearOrder κ] in
theorem newSpans_pages (leaf : WithBot κ × ℕ) (r : InsertResult κ) :
    (newSpans fmt leaf r).map Prod.snd = leaf.2 :: r.newPages := by
  cases r <;> rfl

omit [LinearOrder κ] in
/-- A tree whose root was split gets a new root. -/
theorem wp_growRoot_spans {E : Fault → WriteGuard → Prop} {d : ℕ} {s : Segment κ}
    {span : List (WithBot κ × ℕ)} {r : InsertResult κ} {out : List (Segment κ)} {fresh : List ℕ}
    (hmax : 1 ≤ fmt.maxKeys) (hgrows : Grows fmt g.view d s span r out fresh)
    (hroot : s.page < pageNoLimit)
    (hbelow : ∀ b ∈ out.flatMap Segment.branches, b < g.bound)
    (hE : ∀ e g', AllocFault e → E e g') :
    wp (growRoot fmt s.page r)
      (fun root g' => Touches g g' [] ∧ ∃ d' t fresh', t.fence = s.fence ∧ t.page = root ∧
        t.leaves = span ∧ Spans (IsBranch fmt g'.view) d' t ∧ Fresh g g' fresh' ∧
        t.branches.Perm (s.branches ++ fresh ++ fresh')) E g := by
  obtain ⟨hreports, hspans, hleaves, hbranches⟩ := hgrows
  cases hreports with
  | @fit t hfence hpage =>
      rw [List.flatMap_singleton] at hleaves hbranches
      exact ⟨.refl g [], d, t, [], hfence, hpage, hleaves, hspans t List.mem_cons_self, .nil, by
        rwa [List.append_nil]⟩
  | @split t u newPage sep hfence hpage hnew hsep hlimit =>
      subst hnew
      rw [← hpage] at hroot ⊢
      refine wp_growRoot hmax (fun _ e he => hE e g he) fun g₁ g₂ halloc hputs => ?_
      have ht₁ := Touches.allocate halloc
      have ht : Touches g g₂ [] := ht₁.put_new hputs le_rfl
      have hfences : [t, u].map Segment.fence =
          t.fence :: (([sep].map fmt.norm).map WithBot.some) := by
        simp [hsep]
      refine ⟨ht, d + 1, joined t.fence g.bound [t, u], [g.bound], hfence, rfl, hleaves, ?_, ?_, ?_⟩
      · refine .joined (isBranch_of_view hputs.view_self hfences hmax ?_) hfences (by simp) ?_
        · intro x hx
          rcases List.mem_pair.mp hx with rfl | rfl
          · exact hroot
          · exact hlimit
        · intro x hx
          refine spans_congr (hspans x hx) fun b hb => ht.view_eq b (hbelow b ?_) (by simp)
          exact List.mem_flatMap.mpr ⟨x, hx, hb⟩
      · refine ⟨List.nodup_singleton _, by simpa using halloc.bound_lt, by simp, ?_⟩
        rw [hputs.bound, halloc.bound]
        simp
      · show (g.bound :: [t, u].flatMap Segment.branches).Perm _
        exact (hbranches.cons g.bound).trans (List.perm_append_singleton _ _).symm

omit [Crc32Fast] [LinearOrder κ] in
/-- A leaf is known by its page. -/
theorem leaf_unique {pre₁ post₁ : List (Leaf κ α)} {l₁ : Leaf κ α}
    (hnodup : (leaves.map Leaf.page).Nodup) (h : leaves = pre ++ l :: post)
    (h₁ : leaves = pre₁ ++ l₁ :: post₁) (hpage : l.page = l₁.page) :
    pre = pre₁ ∧ l = l₁ ∧ post = post₁ := by
  rw [h, List.map_append, List.map_cons, List.nodup_append, List.nodup_cons] at hnodup
  obtain ⟨-, ⟨hpost, -⟩, hpre⟩ := hnodup
  refine (List.append_cons_inj_of_notMem (fun hmem => ?_) fun hmem => ?_).mp (h.symm.trans h₁)
  · exact hpre _ (List.mem_map_of_mem hmem) _ List.mem_cons_self hpage.symm
  · exact hpost (hpage ▸ List.mem_map_of_mem hmem)

/-- **An insertion into a tree**, from what the leaf code does to a leaf.  `P` is what
the leaf code says beyond that. -/
theorem wp_insert_tree {E : Fault → WriteGuard → Prop} {depthError : String}
    {intoLeaf : ℕ → Page → StateResult WriteGuard (InsertResult κ)}
    {P : Leaf κ α → List (Leaf κ α) → WriteGuard → Prop} (hmax : 2 ≤ fmt.maxKeys)
    (h : TreeOf fmt cell g root leaves branches)
    (hleaf : ∀ pre l post next prev, leaves = pre ++ l :: post →
      l.fence ≤ (key : WithBot κ) → (∀ q ∈ post, (key : WithBot κ) < q.fence) →
      next = nextPage post 0 → prev = lastPage 0 pre →
      g.view l.page = .ok (leafPage (rowsOf cell l) next prev) →
        wp (intoLeaf l.page (leafPage (rowsOf cell l) next prev))
          (fun r g₁ => ∃ new, LeafStep fmt cell g pre post l r g₁ new ∧ P l new g₁) E g)
    (hdepth : E (.error (.corruption depthError)) g) (hE : ∀ e g', AllocFault e → E e g') :
    wp (insertRecursive fmt depthError key intoLeaf maxTreeDepth root >>= growRoot fmt root)
      (fun root' g' => ∃ pre l post new branches' g₁, leaves = pre ++ l :: post ∧
        TreeOf fmt cell g' root' (pre ++ new ++ post) branches' ∧ P l new g₁ ∧
        Touches g g₁ (leaves.map Leaf.page) ∧ Touches g₁ g' branches ∧
        (∀ p ∈ new.map Leaf.page, p = l.page ∨ g.bound ≤ p ∧ p < g₁.bound) ∧
        ∀ p ∈ branches', p ∈ branches ∨ g₁.bound ≤ p) E g := by
  obtain ⟨d, hspans⟩ := h.spans
  obtain ⟨hleafNodup, hbranchNodup, hdisj⟩ := List.nodup_append.mp h.nodup
  -- the leaf code leaves the branch pages alone
  let R : ℕ → InsertResult κ → WriteGuard → Prop := fun q r g₁ => ∃ pre l post new,
    leaves = pre ++ l :: post ∧ l.page = q ∧ LeafStep fmt cell g pre post l r g₁ new ∧ P l new g₁
  have hrec := @wp_insertRecursive_grows _ fmt _ _ d ⟨⊥, root, leaves.map Leaf.span, branches⟩ g key
    depthError intoLeaf R E maxTreeDepth hmax hspans h.ordered.increasing bot_le hbranchNodup
    (fun b hb => (h.below b (List.mem_append_right _ hb)).1)
    (by
      intro pre' leaf post' hloc
      obtain ⟨pre, l, post, heq, -, rfl, -, hle, hlt⟩ := Located.exists_leaf hloc
      have hview := (heq ▸ h.chained).leafAt.view
      refine ⟨_, hview, isLeaf_leafPage, ?_⟩
      refine (hleaf pre l post _ _ heq hle hlt rfl rfl hview).post ?_
      rintro r g₁ ⟨new, hstep, hP⟩
      exact ⟨pre, l, post, new, heq, rfl, hstep, hP⟩)
    (by
      rintro q r g₁ ⟨pre, l, post, new, heq, -, hstep, -⟩
      refine ⟨hstep.touches.bound_le, fun b hb => ?_, fun newPage sep hr =>
        (hstep.fresh newPage sep hr).2.2⟩
      refine hstep.touches.view_eq b (h.below b (List.mem_append_right _ hb)).1 fun hmem => ?_
      rw [← heq] at hmem
      exact hdisj b hmem b hb rfl)
    hdepth hE
  refine wp_bind.mpr (hrec.post ?_)
  rintro r g₂ ⟨pre', leaf, post', r₀, g₁, out, fresh, hloc, hR, ht, hfresh, hgrows⟩
  obtain ⟨pre, l, post, new, heq, hpage, hstep, hP⟩ := hR
  -- the located leaf is the one the leaf code worked on
  obtain ⟨pre₁, l₁, post₁, heq₁, rfl, rfl, rfl, -, -⟩ := Located.exists_leaf hloc
  obtain ⟨rfl, rfl, rfl⟩ := leaf_unique hleafNodup heq heq₁ hpage
  have hspan : pre.map Leaf.span ++ newSpans fmt l.span r₀ ++ post.map Leaf.span =
      (pre ++ new ++ post).map Leaf.span := by
    rw [List.map_append, List.map_append, hstep.spans]
  rw [hspan] at hgrows
  have hnewpages : new.map Leaf.page = l.page :: r₀.newPages := by
    have hsnd := congrArg (List.map Prod.snd) hstep.spans
    rw [newSpans_pages, List.map_map] at hsnd
    exact hsnd
  have hnew : ∀ p ∈ r₀.newPages, g.bound ≤ p ∧ p < g₁.bound ∧ p < pageNoLimit := by
    cases r₀ with
    | fit => simp [InsertResult.newPages]
    | split newPage sep => simpa [InsertResult.newPages] using hstep.fresh newPage sep rfl
  have hpages : ∀ p, p ∈ (pre ++ new ++ post).map Leaf.page ↔
      p ∈ leaves.map Leaf.page ∨ p ∈ r₀.newPages := by
    intro p
    rw [heq, List.map_append, List.map_append, hnewpages, List.map_append, List.map_cons]
    simp only [List.mem_append, List.mem_cons]
    tauto
  have hle₁ := hstep.touches.bound_le
  have hbelowOut : ∀ b ∈ out.flatMap Segment.branches, b < g₂.bound := by
    intro b hb
    rw [hgrows.branches.mem_iff] at hb
    rcases List.mem_append.mp hb with hb | hb
    · exact (h.below b (List.mem_append_right _ hb)).1.trans_le (hle₁.trans ht.bound_le)
    · exact hfresh.lt b hb
  refine (wp_growRoot_spans (Nat.le_of_succ_le hmax) hgrows (h.below _ h.root_mem).2 hbelowOut hE).post ?_
  rintro root' g₃ ⟨ht₃, d', t, fresh', hfence, rfl, hleaves', hspans', hfresh', hbranches'⟩
  have hmemBranch : ∀ p ∈ t.branches, p ∈ branches ∨ p ∈ fresh ++ fresh' := by
    intro p hp
    rw [hbranches'.mem_iff, List.append_assoc] at hp
    exact List.mem_append.mp hp
  have hnewNodup : r₀.newPages.Nodup := by
    cases r₀ with
    | fit => exact List.nodup_nil
    | split newPage sep => exact List.nodup_singleton _
  -- the pages of the grown tree: the old ones, the new leaf and the new branches
  have hperm : ((pre ++ new ++ post).map Leaf.page ++ t.branches).Perm
      (leaves.map Leaf.page ++ branches ++ (r₀.newPages ++ (fresh ++ fresh'))) := by
    have hcount := List.perm_iff_count.mp hbranches'
    refine List.perm_iff_count.mpr fun a => ?_
    have := hcount a
    simp only [heq, List.map_append, List.map_cons, hnewpages, List.count_append,
      List.count_cons] at this ⊢
    omega
  have hfreshAll := hfresh.append hfresh' ht.bound_le ht₃.bound_le
  have ht' : Touches g₁ g₃ branches := ht.trans (ht₃.mono (by simp))
  refine ⟨pre, l, post, new, t.branches, g₁, heq, ⟨⟨d', ?_⟩, ?_, hstep.ordered, ?_, ?_, ?_⟩, hP,
    heq ▸ hstep.touches, ht', ?_, ?_⟩
  · have ht_eq : t = ⟨⊥, t.page, (pre ++ new ++ post).map Leaf.span, t.branches⟩ := by
      rw [← hleaves', ← show t.fence = ⊥ from hfence]
    exact ht_eq ▸ hspans'
  · refine hstep.chained.congr fun q hq => ?_
    have hmem := (hpages q.page).mp (List.mem_map_of_mem hq)
    refine ht'.view_eq _ ?_ fun hb => ?_
    · rcases hmem with hmem | hmem
      · exact (h.below _ (List.mem_append_left _ hmem)).1.trans_le hle₁
      · exact (hnew _ hmem).2.1
    · rcases hmem with hmem | hmem
      · exact hdisj _ hmem _ hb rfl
      · exact absurd (h.below _ (List.mem_append_right _ hb)).1 (not_lt_of_ge (hnew _ hmem).1)
  · refine hperm.nodup_iff.mpr (List.nodup_append.mpr ⟨h.nodup, List.nodup_append.mpr
      ⟨hnewNodup, hfreshAll.nodup, fun a ha b hb => ?_⟩, fun a ha b hb => ?_⟩)
    · exact ((hnew a ha).2.1.trans_le (hfreshAll.le b hb)).ne
    · rcases List.mem_append.mp hb with hb | hb
      · exact ((h.below a ha).1.trans_le (hnew b hb).1).ne
      · exact ((h.below a ha).1.trans_le (hle₁.trans (hfreshAll.le b hb))).ne
  · intro p hp
    rcases List.mem_append.mp (hperm.mem_iff.mp hp) with hp | hp
    · exact ⟨(h.below p hp).1.trans_le (hle₁.trans ht'.bound_le), (h.below p hp).2⟩
    · rcases List.mem_append.mp hp with hp | hp
      · exact ⟨(hnew p hp).2.1.trans_le ht'.bound_le, (hnew p hp).2.2⟩
      · exact ⟨hfreshAll.lt p hp, hfreshAll.lt_limit p hp⟩
  · have hold := h.tail_ne
    have hl := (h.below l.page (List.mem_append_left _ (List.mem_map_of_mem (by
      rw [heq]
      exact List.mem_append_right _ List.mem_cons_self)))).1
    have hpos : ∀ p ∈ r₀.newPages, p ≠ 0 := fun p hp =>
      (Nat.zero_lt_of_lt (hl.trans_le (hnew p hp).1)).ne'
    intro p hp
    rw [heq] at hold
    rw [List.map_append, List.map_append, hnewpages] at hp
    rw [List.map_append, List.map_cons] at hold
    cases pre with
    | nil =>
        rcases List.mem_append.mp hp with hp | hp
        · exact hpos p hp
        · exact hold p hp
    | cons a pre =>
        simp only [List.map_cons, List.cons_append, List.tail_cons, List.mem_append,
          List.mem_cons] at hp hold
        rcases hp with (hp | hp | hp) | hp
        · exact hold p (.inl hp)
        · exact hold p (.inr (.inl hp))
        · exact hpos p hp
        · exact hold p (.inr (.inr hp))
  · intro p hp
    rw [hnewpages] at hp
    rcases List.mem_cons.mp hp with hp | hp
    · exact .inl hp
    · exact .inr ⟨(hnew p hp).1, (hnew p hp).2.1⟩
  · intro p hp
    exact (hmemBranch p hp).imp_right fun hp => hfreshAll.le p hp

end

end BoogyDb
