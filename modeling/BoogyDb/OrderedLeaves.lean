import BoogyDb.Lib.BinarySearch
import BoogyDb.OrderedTree

/-!
# The leaves of an ordered tree

The steps of the leaf code as `LeafStep`s: an entry put in place, and a leaf split
around a new entry.  A removal leaves the tree with an entry less, a new tree is
one empty leaf, and a walk over the leaf chain visits the leaves in order.
-/

namespace BoogyDb

open Wp WriteGuard FencedTree

variable {κ α : Type} [Crc32Fast] [LinearOrder κ] {fmt : BranchFormat κ}
  {cell : κ × α → List UInt8} {g g₁ g' : WriteGuard} {root pos : ℕ}
  {leaves pre post : List (Leaf κ α)} {l : Leaf κ α} {branches : List ℕ} {e : κ × α}

/-! ## A leaf with one entry more -/

/-- The leaf with `e` at position `pos`. -/
def grownLeaf (l : Leaf κ α) (pos : ℕ) (e : κ × α) : Leaf κ α :=
  ⟨l.fence, l.page, l.entries.insertIdx pos e⟩

/-- The position and the bounds of a new entry. -/
structure Belongs (l : Leaf κ α) (post : List (Leaf κ α)) (pos : ℕ) (e : κ × α) : Prop where
  pos_le : pos ≤ l.entries.length
  below : ∀ b ∈ l.entries.take pos, b.1 < e.1
  above : ∀ b ∈ l.entries.drop pos, e.1 < b.1
  fenced : l.fence ≤ e.1
  bounded : ∀ q ∈ post, (e.1 : WithBot κ) < q.fence

omit [Crc32Fast] in
theorem Belongs.mem (h : Belongs l post pos e) {b : κ × α} :
    b ∈ (grownLeaf l pos e).entries ↔ b = e ∨ b ∈ l.entries := List.mem_insertIdx h.pos_le

omit [Crc32Fast] in
theorem Belongs.sorted (h : Belongs l post pos e) (hl : l.Sorted) : (grownLeaf l pos e).Sorted where
  increase := hl.increase.insertIdx h.pos_le h.below h.above
  fenced b hb := by
    rcases h.mem.mp hb with rfl | hb
    · exact h.fenced
    · exact hl.fenced b hb

omit [Crc32Fast] in
/-- All entries of the grown leaf lie before the leaves behind it. -/
theorem Belongs.lt (h : Belongs l post pos e) (hord : Ordered (pre ++ l :: post)) {q : Leaf κ α}
    (hq : q ∈ post) : ∀ b ∈ (grownLeaf l pos e).entries, (b.1 : WithBot κ) < q.fence := by
  intro b hb
  have hbefore := List.rel_of_pairwise_cons (List.pairwise_append.mp hord.before).2.1 hq
  rcases h.mem.mp hb with rfl | hb
  · exact h.bounded q hq
  · exact hbefore.entries b hb

omit [Crc32Fast] [LinearOrder κ] in
theorem rowsOf_grownLeaf (l : Leaf κ α) (pos : ℕ) (e : κ × α) :
    rowsOf cell (grownLeaf l pos e) = (rowsOf cell l).insertIdx pos (cell e) :=
  List.map_insertIdx _ _ _ _

omit [Crc32Fast] in
/-- The place of an entry whose key is between the keys around it. -/
theorem belongs_of_splits [Inhabited κ] {res : ℕ × Bool}
    (hsplit : BinarySearch.Splits (fun i => (l.entries.map Prod.fst).getD i default) e.1 0
      l.entries.length res) (hmiss : res.2 = false) (hfence : l.fence ≤ e.1)
    (hbound : ∀ q ∈ post, (e.1 : WithBot κ) < q.fence) : Belongs l post res.1 e := by
  have hkey : ∀ i (h : i < l.entries.length),
      (l.entries.map Prod.fst).getD i default = l.entries[i].1 := by
    intro i h
    rw [List.getD_eq_getElem?_getD, List.getElem?_map, List.getElem?_eq_getElem h]
    rfl
  refine ⟨hsplit.le_hi, fun b hb => ?_, fun b hb => ?_, hfence, hbound⟩
  · obtain ⟨i, hi, rfl⟩ := List.getElem_of_mem hb
    rw [List.length_take] at hi
    have := hsplit.below i (Nat.zero_le _) (by omega)
    rw [hkey i (by omega)] at this
    rwa [List.getElem_take]
  · obtain ⟨i, hi, rfl⟩ := List.getElem_of_mem hb
    rw [List.length_drop] at hi
    have := hsplit.above (res.1 + i) (Nat.le_add_right _ _) (by omega)
    rw [hmiss, if_neg (by simp), hkey _ (by omega)] at this
    rwa [List.getElem_drop]

/-! ## The leaves around a leaf -/

/-- The leaves around a leaf are on other pages. -/
theorem TreeOf.page_ne (h : TreeOf fmt cell g root (pre ++ l :: post) branches) :
    ∀ q ∈ pre ++ post, q.page ≠ l.page := by
  obtain ⟨hpages, -, -⟩ := List.nodup_append.mp h.nodup
  rw [List.map_append, List.map_cons, List.nodup_append, List.nodup_cons] at hpages
  obtain ⟨-, ⟨hpost, -⟩, hpre⟩ := hpages
  intro q hq heq
  rcases List.mem_append.mp hq with hq | hq
  · exact hpre _ (List.mem_map_of_mem hq) _ List.mem_cons_self heq
  · exact hpost (heq ▸ List.mem_map_of_mem hq)

theorem TreeOf.page_lt (h : TreeOf fmt cell g root leaves branches) (hl : l ∈ leaves) :
    l.page < g.bound := (h.below _ (List.mem_append_left _ (List.mem_map_of_mem hl))).1

theorem TreeOf.page_lt_limit (h : TreeOf fmt cell g root leaves branches) (hl : l ∈ leaves) :
    l.page < pageNoLimit := (h.below _ (List.mem_append_left _ (List.mem_map_of_mem hl))).2

omit [LinearOrder κ] in
/-- A chain with other entries in one of its leaves. -/
theorem Chained.put {v v' : ℕ → Result Page} {l' : Leaf κ α} {before after : ℕ}
    (h : Chained cell v before (pre ++ l :: post) after) (hpage : l'.page = l.page)
    (hview : v' l.page = .ok (leafPage (rowsOf cell l') (nextPage post after)
      (lastPage before pre)))
    (hfits : Fits (rowsOf cell l')) (hother : ∀ q ∈ pre ++ post, v' q.page = v q.page) :
    Chained cell v' before (pre ++ l' :: post) after := by
  obtain ⟨hpre, -, hpost⟩ := chained_append.mp h
  have hnext : nextPage (l' :: post) after = nextPage (l :: post) after := hpage
  refine chained_append.mpr ⟨?_, ⟨?_, hfits⟩, ?_⟩
  · rw [hnext]
    exact hpre.congr fun q hq => hother q (List.mem_append_left _ hq)
  · rw [hpage]
    exact hview
  · rw [hpage]
    exact hpost.congr fun q hq => hother q (List.mem_append_right _ hq)

/-! ## In place -/

/-- **An entry put in place.** -/
theorem wp_insertInPlace_step {E : Fault → WriteGuard → Prop} {next prev : ℕ}
    (h : TreeOf fmt cell g root (pre ++ l :: post) branches) (ht : Touches g g₁ [])
    (hview : g.view l.page = .ok (leafPage (rowsOf cell l) next prev))
    (hnext : next = nextPage post 0) (hprev : prev = lastPage 0 pre) (hb : Belongs l post pos e)
    (hfits : Fits ((rowsOf cell l).insertIdx pos (cell e))) :
    wp (insertInPlace l.page (leafPage (rowsOf cell l) next prev) pos (cell e))
      (fun _ g' => LeafStep fmt cell g pre post l .fit g' [grownLeaf l pos e] ∧
        Touches g₁ g' [l.page]) E g₁ := by
  have hmem : l ∈ pre ++ l :: post := List.mem_append_right _ List.mem_cons_self
  have hview₁ : g₁.view l.page = .ok (leafPage (rowsOf cell l) next prev) := by
    rw [ht.view_eq _ (h.page_lt hmem) (by simp), hview]
  refine wp_insertInPlace hview₁ h.chained.leafAt.fits
    (by rw [rowsOf, List.length_map]; exact hb.pos_le) hfits (hnext ▸ h.nextPage_lt)
    (hprev ▸ h.lastPage_lt) fun g' hputs => ?_
  have ht' : Touches g g' [l.page] := (ht.mono (by simp)).trans (.put hputs)
  have hother : ∀ q ∈ pre ++ post, g'.view q.page = g.view q.page := by
    intro q hq
    have hq' : q ∈ pre ++ l :: post := by
      rcases List.mem_append.mp hq with hq | hq
      · exact List.mem_append_left _ hq
      · exact List.mem_append_right _ (List.mem_cons_of_mem _ hq)
    exact ht'.view_eq _ (h.page_lt hq') (by simpa using h.page_ne q hq)
  refine ⟨⟨rfl, ht'.mono (by simp), ?_, ?_, ?_⟩, .put hputs⟩
  · rw [List.append_assoc, List.singleton_append]
    refine h.chained.put rfl ?_ ?_ hother
    · rw [rowsOf_grownLeaf, ← hnext, ← hprev]
      exact hputs.view_self
    · rw [rowsOf_grownLeaf]
      exact hfits
  · refine h.ordered.replace (ordered_singleton (hb.sorted (h.ordered.sorted l hmem))) ?_ ?_
    · intro n hn
      rw [List.mem_singleton.mp hn]
      exact le_rfl
    · intro n hn q hq
      rw [List.mem_singleton.mp hn]
      exact ⟨(List.rel_of_pairwise_cons (List.pairwise_append.mp h.ordered.before).2.1 hq).fence,
        hb.lt h.ordered hq⟩
  · intro newPage sep heq
    cases heq

/-! ## A split -/

/-- The halves of a leaf that is split around a new entry. -/
def halves (l : Leaf κ α) (pos : ℕ) (e : κ × α) (mid : ℕ) (fence : κ) (newPage : ℕ) :
    List (Leaf κ α) :=
  [⟨l.fence, l.page, (grownLeaf l pos e).entries.take mid⟩,
    ⟨fence, newPage, (grownLeaf l pos e).entries.drop mid⟩]

omit [Crc32Fast] in
/-- Both halves lie before the leaves behind the leaf that was split. -/
theorem halves_ordered {mid newPage : ℕ} {fence : κ} (hord : Ordered (pre ++ l :: post))
    (hb : Belongs l post pos e) (hmid : 0 < mid) (hmidle : mid ≤ l.entries.length)
    (hbelow : ∀ b ∈ (grownLeaf l pos e).entries.take mid, b.1 < fence)
    (habove : ∀ b ∈ (grownLeaf l pos e).entries.drop mid, fence ≤ b.1) :
    Ordered (pre ++ halves l pos e mid fence newPage ++ post) := by
  have hsorted := hb.sorted (hord.sorted l (List.mem_append_right _ List.mem_cons_self))
  have hlen : (grownLeaf l pos e).entries.length = l.entries.length + 1 :=
    List.length_insertIdx_of_le_length hb.pos_le e
  refine hord.replace (ordered_halves hsorted hmid ?_ hbelow habove) ?_ ?_
  · exact List.ne_nil_of_length_pos (by omega)
  · intro n hn
    rcases List.mem_pair.mp hn with rfl | rfl
    · exact le_rfl
    · obtain ⟨b, rest, hhead⟩ := List.exists_cons_of_length_pos
        (show 0 < (grownLeaf l pos e).entries.length by omega)
      have hbmem : b ∈ (grownLeaf l pos e).entries.take mid := by
        obtain ⟨m, rfl⟩ := Nat.exists_eq_succ_of_ne_zero hmid.ne'
        rw [hhead, List.take_succ_cons]
        exact List.mem_cons_self
      exact (hsorted.fenced b (List.mem_of_mem_take hbmem)).trans
        (WithBot.coe_le_coe.mpr (hbelow b hbmem).le)
  · intro n hn q hq
    have hbefore := List.rel_of_pairwise_cons (List.pairwise_append.mp hord.before).2.1 hq
    rcases List.mem_pair.mp hn with rfl | rfl
    · exact ⟨hbefore.fence, fun b hb' => hb.lt hord hq b (List.mem_of_mem_take hb')⟩
    · -- the right half has an entry, which is not below the new fence
      refine ⟨?_, fun b hb' => hb.lt hord hq b (List.mem_of_mem_drop hb')⟩
      have hget : getElem (grownLeaf l pos e).entries mid (by omega) ∈
          (grownLeaf l pos e).entries.drop mid := by
        rw [List.drop_eq_getElem_cons (by omega)]
        exact List.mem_cons_self
      exact (WithBot.coe_le_coe.mpr (habove _ hget)).trans_lt
        (hb.lt hord hq _ (List.mem_of_mem_drop hget))

omit [LinearOrder κ] in
/-- The chain after a split: the halves are linked, and the leaf behind points back
to the new page. -/
theorem Chained.split {v v' : ℕ → Result Page} {left right : Leaf κ α} {before : ℕ}
    (h : Chained cell v before (pre ++ l :: post) 0) (hleftPage : left.page = l.page)
    (hleft : v' l.page = .ok (leafPage (rowsOf cell left) right.page (lastPage before pre)))
    (hleftFits : Fits (rowsOf cell left))
    (hright : v' right.page = .ok (leafPage (rowsOf cell right) (nextPage post 0) l.page))
    (hrightFits : Fits (rowsOf cell right)) (hpre : ∀ q ∈ pre, v' q.page = v q.page)
    (hpost : ∀ q post', post = q :: post' → (∀ r ∈ post', v' r.page = v r.page) ∧
      v' q.page = .ok (leafPage (rowsOf cell q) (nextPage post' 0) right.page)) :
    Chained cell v' before (pre ++ [left, right] ++ post) 0 := by
  obtain ⟨hchainPre, -, hchainPost⟩ := chained_append.mp h
  rw [List.append_assoc]
  refine chained_append.mpr ⟨?_, ⟨?_, hleftFits⟩, ⟨?_, hrightFits⟩, ?_⟩
  · have hnext : nextPage ([left, right] ++ post) 0 = nextPage (l :: post) 0 := hleftPage
    rw [hnext]
    exact hchainPre.congr hpre
  · rw [hleftPage]
    exact hleft
  · rw [hleftPage]
    exact hright
  · cases post with
    | nil => trivial
    | cons q post' =>
        obtain ⟨hrest, hq⟩ := hpost q post' rfl
        obtain ⟨⟨-, hfits⟩, hchain⟩ := hchainPost
        exact ⟨⟨hq, hfits⟩, hchain.congr hrest⟩

/-- **A leaf split around a new entry**, when its halves fit and the separator, as
the branches keep it, lies between them. -/
theorem wp_splitLeaf_step {E : Fault → WriteGuard → Prop} {next prev mid : ℕ} {sep : κ}
    {separator : Result κ} (h : TreeOf fmt cell g root (pre ++ l :: post) branches)
    (ht : Touches g g₁ [])
    (hview : g.view l.page = .ok (leafPage (rowsOf cell l) next prev))
    (hnext : next = nextPage post 0) (hprev : prev = lastPage 0 pre) (hb : Belongs l post pos e)
    (hmid : 0 < mid) (hmidle : mid ≤ l.entries.length)
    (hleft : Fits (leftHalf (rowsOf cell l) pos (cell e) mid))
    (hright : Fits (rightHalf (rowsOf cell l) pos (cell e) mid)) (hsep : separator = .ok sep)
    (hbelow : ∀ b ∈ (grownLeaf l pos e).entries.take mid, b.1 < fmt.norm sep)
    (habove : ∀ b ∈ (grownLeaf l pos e).entries.drop mid, fmt.norm sep ≤ b.1)
    (hE : ∀ e, AllocFault e → E e g₁) :
    wp (splitLeaf l.page (leafPage (rowsOf cell l) next prev) pos (cell e) mid separator)
      (fun r g' => LeafStep fmt cell g pre post l r g'
        (halves l pos e mid (fmt.norm sep) g₁.bound) ∧
        Touches g₁ g' ((pre ++ l :: post).map Leaf.page) ∧ g₁.bound < g'.bound) E g₁ := by
  have hmem : l ∈ pre ++ l :: post := List.mem_append_right _ List.mem_cons_self
  have hsides : ∀ q ∈ pre ++ post, q ∈ pre ++ l :: post := by
    intro q hq
    rcases List.mem_append.mp hq with hq | hq
    · exact List.mem_append_left _ hq
    · exact List.mem_append_right _ (List.mem_cons_of_mem _ hq)
  have hlt₁ : ∀ q ∈ pre ++ l :: post, q.page < g₁.bound := fun q hq =>
    (h.page_lt hq).trans_le ht.bound_le
  have hview₁ : g₁.view l.page = .ok (leafPage (rowsOf cell l) next prev) := by
    rw [ht.view_eq _ (h.page_lt hmem) (by simp), hview]
  have hrowsLen : (rowsOf cell l).length = l.entries.length := List.length_map _
  refine wp_splitLeaf hview₁ (hlt₁ l hmem).ne h.chained.leafAt.fits
    (by rw [hrowsLen]; exact hb.pos_le) (by rw [hrowsLen]; omega) hleft hright
    (hnext ▸ h.nextPage_lt) (hprev ▸ h.lastPage_lt) hsep (fun _ => hE) ?_
  intro g₂ g₃ g₄ halloc hputs₃ hputs₄
  have hnew : ∀ q ∈ pre ++ l :: post, q.page ≠ g₁.bound := fun q hq => (hlt₁ q hq).ne
  -- the pages once both halves are written
  have ht₄ : Touches g₁ g₄ [l.page] :=
    (((Touches.allocate halloc).mono (by simp)).trans (.put hputs₃)).put_new hputs₄ le_rfl
  have hbound₄ : g₄.bound = g₁.bound + 1 := by
    rw [hputs₄.bound, hputs₃.bound, halloc.bound]
  have hleftView : g₄.view l.page =
      .ok (leafPage (leftHalf (rowsOf cell l) pos (cell e) mid) g₁.bound prev) := by
    rw [hputs₄.view_of_ne (hnew l hmem), hputs₃.view_self]
  have hother : ∀ q ∈ pre ++ post, g₄.view q.page = g.view q.page := by
    intro q hq
    rw [ht₄.view_eq _ (hlt₁ q (hsides q hq)) (by simpa using h.page_ne q hq),
      ht.view_eq _ (h.page_lt (hsides q hq)) (by simp)]
  have hleftRows : rowsOf cell ⟨l.fence, l.page, (grownLeaf l pos e).entries.take mid⟩ =
      leftHalf (rowsOf cell l) pos (cell e) mid := by
    rw [leftHalf, ← rowsOf_grownLeaf, rowsOf, rowsOf, List.map_take]
  have hrightRows : rowsOf cell ⟨fmt.norm sep, g₁.bound, (grownLeaf l pos e).entries.drop mid⟩ =
      rightHalf (rowsOf cell l) pos (cell e) mid := by
    rw [rightHalf, ← rowsOf_grownLeaf, rowsOf, rowsOf, List.map_drop]
  -- what is left to do is the back pointer of the leaf behind
  have hdone : ∀ g', Touches g₄ g' ((post.take 1).map Leaf.page) →
      (∀ q post', post = q :: post' →
        g'.view q.page = .ok (leafPage (rowsOf cell q) (nextPage post' 0) g₁.bound)) →
      LeafStep fmt cell g pre post l (.split g₁.bound sep) g'
          (halves l pos e mid (fmt.norm sep) g₁.bound) ∧
        Touches g₁ g' ((pre ++ l :: post).map Leaf.page) ∧ g₁.bound < g'.bound := by
    intro g' ht' hback
    have hbound' := ht'.bound_le
    have htall : Touches g₁ g' ((pre ++ l :: post).map Leaf.page) := by
      refine (ht₄.mono (by simp)).trans (ht'.mono fun p hp => ?_)
      obtain ⟨q, hq, rfl⟩ := List.mem_map.mp hp
      exact List.mem_map_of_mem (hsides q (List.mem_append_right _ (List.mem_of_mem_take hq)))
    have hkeep : ∀ p, p < g₄.bound → (∀ q ∈ post.take 1, q.page ≠ p) → g'.view p = g₄.view p :=
      fun p hp hne => ht'.view_eq p hp fun hmem => by
        obtain ⟨q, hq, heq⟩ := List.mem_map.mp hmem
        exact hne q hq heq
    have hbehind : ∀ q ∈ post.take 1, q ∈ pre ++ l :: post := fun q hq =>
      hsides q (List.mem_append_right _ (List.mem_of_mem_take hq))
    have hnodup := (List.nodup_append.mp h.nodup).1
    rw [List.map_append, List.map_cons, List.nodup_append, List.nodup_cons] at hnodup
    obtain ⟨-, ⟨-, hpostNodup⟩, hpreNot⟩ := hnodup
    refine ⟨⟨rfl, (ht.mono (by simp)).trans htall, ?_, ?_, ?_⟩, htall, by omega⟩
    · refine h.chained.split rfl ?_ (hleftRows ▸ hleft) ?_ (hrightRows ▸ hright) ?_ ?_
      · rw [hkeep _ (by have := hlt₁ l hmem; omega) fun q hq =>
          h.page_ne q (List.mem_append_right _ (List.mem_of_mem_take hq)), hleftRows, ← hprev]
        exact hleftView
      · rw [hkeep _ (by omega) fun q hq => hnew q (hbehind q hq), hrightRows, ← hnext]
        exact hputs₄.view_self
      · intro q hq
        rw [hkeep _ (by have := hlt₁ q (List.mem_append_left _ hq); omega) fun r hr =>
          (hpreNot _ (List.mem_map_of_mem hq) _ (List.mem_cons_of_mem _
            (List.mem_map_of_mem (List.mem_of_mem_take hr)))).symm,
          hother q (List.mem_append_left _ hq)]
      · intro q post' hpost
        refine ⟨fun r hr => ?_, hback q post' hpost⟩
        subst hpost
        rw [List.map_cons, List.nodup_cons] at hpostNodup
        have hr' : r ∈ pre ++ q :: post' := List.mem_append_right _ (List.mem_cons_of_mem _ hr)
        rw [hkeep _ (by have := hlt₁ r (hsides r hr'); omega), hother r hr']
        intro x hx heq
        obtain rfl : x = q := by simpa using hx
        exact hpostNodup.1 (heq ▸ List.mem_map_of_mem hr)
    · exact halves_ordered h.ordered hb hmid hmidle hbelow habove
    · intro newPage sep' heq
      cases heq
      exact ⟨ht.bound_le, by omega, halloc.bound_lt⟩
  cases hpost : post with
  | nil =>
      subst hpost
      have hzero : next = 0 := hnext
      refine @wp_linkBack _ _ g₄ [] next 0 0 _ g₁.bound (absurd hzero) (fun _ => ?_)
        (absurd hzero)
      exact hdone g₄ (.refl g₄ _) fun q post' heq => by cases heq
  | cons q post' =>
      subst hpost
      have hne : next ≠ 0 := hnext ▸ h.nextPage_ne (by simp)
      have hqpage : next = q.page := hnext
      obtain ⟨-, -, ⟨hqview, -⟩, -⟩ := chained_append.mp h.chained
      have hqview₄ : g₄.view next = .ok (leafPage (rowsOf cell q) (nextPage post' 0) l.page) := by
        rw [hqpage, hother q (List.mem_append_right _ List.mem_cons_self), hqview]
      refine wp_linkBack (fun _ => hqview₄) (fun hzero => absurd hzero hne) fun _ g' hputs => ?_
      rw [hqpage] at hputs
      refine hdone g' (.put hputs) fun r post'' heq => ?_
      obtain ⟨rfl, rfl⟩ := List.cons.inj heq
      exact hputs.view_self

/-! ## Other entries in a leaf -/

/-- **A leaf page is rewritten with other entries**, within the bounds of the leaf. -/
theorem TreeOf.put_leaf {l' : Leaf κ α} {next prev : ℕ}
    (h : TreeOf fmt cell g root (pre ++ l :: post) branches) (hspan : l'.span = l.span)
    (hord : Ordered (pre ++ l' :: post)) (hnext : next = nextPage post 0)
    (hprev : prev = lastPage 0 pre) (hfits : Fits (rowsOf cell l'))
    (hputs : Puts g g' l.page (leafPage (rowsOf cell l') next prev)) :
    TreeOf fmt cell g' root (pre ++ l' :: post) branches := by
  have hpage : l'.page = l.page := congrArg Prod.snd hspan
  have hpages : (pre ++ l' :: post).map Leaf.page = (pre ++ l :: post).map Leaf.page := by
    rw [List.map_append, List.map_append, List.map_cons, List.map_cons, hpage]
  have hspans : (pre ++ l' :: post).map Leaf.span = (pre ++ l :: post).map Leaf.span := by
    rw [List.map_append, List.map_append, List.map_cons, List.map_cons, hspan]
  have hl : l.page ∈ (pre ++ l :: post).map Leaf.page :=
    List.mem_map_of_mem (List.mem_append_right _ List.mem_cons_self)
  constructor
  · obtain ⟨d, hd⟩ := h.spans
    obtain ⟨-, -, hdisj⟩ := List.nodup_append.mp h.nodup
    rw [hspans]
    refine ⟨d, spans_congr hd fun p hp => hputs.view_of_ne fun heq => ?_⟩
    exact hdisj l.page hl p hp heq.symm
  · subst hnext hprev
    exact h.chained.put hpage hputs.view_self hfits fun q hq =>
      hputs.view_of_ne (h.page_ne q hq)
  · exact hord
  · rw [hpages]
    exact h.nodup
  · rw [hpages, hputs.bound]
    exact h.below
  · rw [hpages]
    exact h.tail_ne

/-- The leaf without its entry at position `pos`. -/
def shrunkLeaf (l : Leaf κ α) (pos : ℕ) : Leaf κ α := ⟨l.fence, l.page, l.entries.eraseIdx pos⟩

/-- **An entry is removed from a leaf.** -/
theorem wp_removeInPlace_tree {E : Fault → WriteGuard → Prop} {next prev : ℕ}
    (h : TreeOf fmt cell g root (pre ++ l :: post) branches)
    (hview : g.view l.page = .ok (leafPage (rowsOf cell l) next prev))
    (hnext : next = nextPage post 0) (hprev : prev = lastPage 0 pre)
    (hpos : pos < l.entries.length) :
    wp (removeInPlace l.page (leafPage (rowsOf cell l) next prev) pos)
      (fun _ g' => TreeOf fmt cell g' root (pre ++ shrunkLeaf l pos :: post) branches ∧
        Touches g g' [l.page]) E g := by
  have hfits := h.chained.leafAt.fits
  have hrows : (rowsOf cell l).eraseIdx pos = rowsOf cell (shrunkLeaf l pos) :=
    List.eraseIdx_map ..
  refine wp_removeInPlace hview hfits (by rwa [rowsOf, List.length_map]) (hnext ▸ h.nextPage_lt)
    (hprev ▸ h.lastPage_lt) fun g' hputs => ⟨?_, .put hputs⟩
  rw [hrows] at hputs
  refine h.put_leaf rfl (h.ordered.shrink rfl (List.eraseIdx_sublist _ _)) hnext hprev ?_ hputs
  exact hrows ▸ hfits.sublist (List.eraseIdx_sublist _ _)

/-! ## A new tree -/

/-- **A new tree is one empty leaf.** -/
theorem wp_createTree_tree {E : Fault → WriteGuard → Prop} (hE : ∀ e, AllocFault e → E e g) :
    wp createTree (fun root g' => TreeOf fmt cell g' root [⟨⊥, root, []⟩] [] ∧
      Touches g g' [] ∧ root = g.bound) E g := by
  rw [createTree, wp_bind]
  refine wp_allocatePage (fun g₁ halloc => ?_) fun _ => hE
  rw [wp_bind, newLeaf_eq_leafPage]
  refine wp_putPage fun g₂ hputs => ⟨?_, (Touches.allocate halloc).put_new hputs le_rfl, rfl⟩
  constructor
  · exact ⟨0, rfl, rfl⟩
  · exact ⟨⟨hputs.view_self, show Fits [] by decide⟩, trivial⟩
  · exact ordered_singleton ⟨List.Pairwise.nil, by simp⟩
  · exact List.nodup_singleton _
  · intro p hp
    obtain rfl : p = g.bound := List.mem_singleton.mp hp
    refine ⟨?_, halloc.bound_lt⟩
    rw [hputs.bound, halloc.bound]
    exact Nat.lt_succ_self _
  · simp

/-! ## Finding leaves -/

/-- A descent by a key reaches the leaf the key belongs to. -/
theorem TreeOf.descend_key (h : TreeOf fmt cell g root leaves branches) (key : κ)
    (depthError : String) :
    ∃ pre l post, leaves = pre ++ l :: post ∧ l.fence ≤ (key : WithBot κ) ∧
      (∀ q ∈ post, (key : WithBot κ) < q.fence) ∧
      g.view l.page = .ok (leafPage (rowsOf cell l) (nextPage post 0) (lastPage 0 pre)) ∧
      descend depthError g.view (routeKey fmt key) maxTreeDepth root =
        .ok (l.page, leafPage (rowsOf cell l) (nextPage post 0) (lastPage 0 pre)) := by
  obtain ⟨d, hspans⟩ := h.spans
  obtain ⟨pre', leaf, post', page, hloc, hread, hdescend⟩ := @descend_located _ _ _ fmt key
    depthError g.view d ⟨⊥, root, leaves.map Leaf.span, branches⟩ maxTreeDepth hspans
    h.ordered.increasing bot_le (h.depth_lt hspans) fun leaf hleaf => by
      obtain ⟨l, hl, rfl⟩ := List.mem_map.mp hleaf
      obtain ⟨pre, post, rfl⟩ := List.append_of_mem hl
      exact ⟨_, _, _, h.chained.leafAt.view⟩
  obtain ⟨pre, l, post, heq, -, rfl, -, hle, hlt⟩ := Located.exists_leaf hloc
  have hview := (heq ▸ h.chained).leafAt.view
  obtain rfl : page = _ := Except.ok.inj (hread.symm.trans hview)
  exact ⟨pre, l, post, heq, hle, hlt, hview, hdescend⟩

/-- The descent along the leftmost children reaches the first leaf. -/
theorem TreeOf.descend_leftmost (h : TreeOf fmt cell g root leaves branches)
    (depthError : String) :
    ∃ l rest page, leaves = l :: rest ∧
      descend depthError g.view (routeFirst fmt) maxTreeDepth root = .ok (l.page, page) := by
  obtain ⟨d, hspans⟩ := h.spans
  obtain ⟨leaf, rest', page, heq, hdescend⟩ := @descend_first _ _ fmt depthError g.view d
    ⟨⊥, root, leaves.map Leaf.span, branches⟩ maxTreeDepth hspans (h.depth_lt hspans)
    fun leaf hleaf => by
      obtain ⟨l, hl, rfl⟩ := List.mem_map.mp hleaf
      obtain ⟨pre, post, rfl⟩ := List.append_of_mem hl
      exact ⟨_, _, _, h.chained.leafAt.view⟩
  obtain ⟨l, rest, rfl, rfl, -⟩ := List.map_eq_cons_iff.mp heq
  exact ⟨l, rest, page, rfl, hdescend⟩

/-- A tree has no more leaves than pages. -/
theorem TreeOf.length_le (h : TreeOf fmt cell g root leaves branches) :
    leaves.length ≤ g.bound := by
  have hsub : (leaves.map Leaf.page).Subperm (List.range g.bound) :=
    List.subperm_of_subset (List.nodup_append.mp h.nodup).1 fun p hp =>
      List.mem_range.mpr (h.below p (List.mem_append_left _ hp)).1
  have hlen := hsub.length_le
  rwa [List.length_map, List.length_range] at hlen

/-! ## Walking the leaf chain -/

/-- Take the leaves in order, until `f` says to stop. -/
def foldLeaves {β : Type} (f : Leaf κ α → β → β × Bool) : List (Leaf κ α) → β → β
  | [], acc => acc
  | l :: leaves, acc => if (f l acc).2 then (f l acc).1 else foldLeaves f leaves (f l acc).1

omit [LinearOrder κ] in
/-- **A walk visits the leaves of the chain in order.** -/
theorem walkLeaves_chained {β : Type} {cycleError : String} {read : ℕ → Result Page}
    {visit : Page → β → Result (β × Bool)} {f : Leaf κ α → β → β × Bool} {fuel before : ℕ} {acc : β}
    (h : Chained cell read before (l :: post) 0)
    (hvisit : ∀ q ∈ l :: post, ∀ next prev acc,
      visit (leafPage (rowsOf cell q) next prev) acc = .ok (f q acc))
    (hpages : ∀ q ∈ post, q.page ≠ 0 ∧ q.page < pageNoLimit) (hfuel : post.length < fuel) :
    walkLeaves cycleError read visit fuel l.page acc = .ok (foldLeaves f (l :: post) acc) := by
  induction post generalizing l fuel before acc with
  | nil =>
      obtain ⟨fuel, rfl⟩ := Nat.exists_eq_succ_of_ne_zero (Nat.ne_of_gt hfuel)
      obtain ⟨⟨hview, -⟩, -⟩ := h
      have hnext : (leafPage (rowsOf cell l) 0 before).nextLeaf = 0 :=
        nextLeaf_leafPage (Nat.two_pow_pos _)
      rw [nextPage] at hview
      rw [walkLeaves, hview, ok_bind, hvisit l List.mem_cons_self, ok_bind, foldLeaves, foldLeaves,
        ite_self]
      dsimp only
      rw [if_pos (Or.inr hnext), pure_eq_ok]
  | cons q post ih =>
      obtain ⟨fuel, rfl⟩ := Nat.exists_eq_succ_of_ne_zero (Nat.ne_of_gt (Nat.zero_lt_of_lt hfuel))
      obtain ⟨⟨hview, -⟩, hrest⟩ := h
      rw [List.forall_mem_cons] at hpages
      obtain ⟨⟨hne, hlimit⟩, hpages⟩ := hpages
      have hnext : (leafPage (rowsOf cell l) (nextPage (q :: post) 0) before).nextLeaf = q.page :=
        nextLeaf_leafPage hlimit
      rw [walkLeaves, hview, ok_bind, hvisit l List.mem_cons_self, ok_bind, foldLeaves]
      dsimp only
      rw [hnext]
      by_cases hstop : (f l acc).2 = true
      · rw [if_pos (Or.inl hstop), if_pos hstop, pure_eq_ok]
      · rw [if_neg (by simp [hstop, hne]), if_neg hstop]
        exact ih hrest (fun q hq => hvisit q (List.mem_cons_of_mem _ hq)) hpages
          (Nat.lt_of_succ_lt_succ hfuel)

/-- The leaves behind a leaf of a tree are on pages that are not page `0`. -/
theorem TreeOf.behind (h : TreeOf fmt cell g root (pre ++ l :: post) branches) :
    ∀ q ∈ post, q.page ≠ 0 ∧ q.page < pageNoLimit := by
  intro q hq
  have hmem : q ∈ pre ++ l :: post := List.mem_append_right _ (List.mem_cons_of_mem _ hq)
  refine ⟨h.tail_ne q.page ?_, (h.below _ (List.mem_append_left _ (List.mem_map_of_mem hmem))).2⟩
  cases pre with
  | nil => exact List.mem_map_of_mem hq
  | cons a pre =>
      exact List.mem_map_of_mem (List.mem_append_right _ (List.mem_cons_of_mem _ hq))

/-! ## Commits -/

/-- Every page of a tree is there. -/
theorem TreeOf.exists_page (h : TreeOf fmt cell g root leaves branches) {p : ℕ}
    (hp : p ∈ leaves.map Leaf.page ++ branches) : ∃ page, g.view p = .ok page := by
  rcases List.mem_append.mp hp with hp | hp
  · obtain ⟨l, hl, rfl⟩ := List.mem_map.mp hp
    obtain ⟨pre, post, rfl⟩ := List.append_of_mem hl
    exact ⟨_, h.chained.leafAt.view⟩
  · obtain ⟨d, hspans⟩ := h.spans
    obtain ⟨children, keys, hview, -⟩ := hspans.exists_branch hp
    exact ⟨_, hview⟩

/-- **A commit keeps a tree.** -/
theorem TreeOf.commit {file : PageFile} {afterImages : List (ℕ × Page)}
    (h : TreeOf fmt cell g root leaves branches) (hcommit : g.commit = .ok (afterImages, file)) :
    TreeOf fmt cell file root leaves branches := by
  refine h.congr (fun p hp => ?_) (commit_bound hcommit).ge
  obtain ⟨page, hpage⟩ := h.exists_page hp
  rw [commit_view hcommit (h.below p hp).1 hpage, hpage]

end BoogyDb
