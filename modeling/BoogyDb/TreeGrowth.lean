import BoogyDb.Lib.FencedLeaves
import BoogyDb.TreeSteps

/-!
# How an insertion grows a tree

The pages below a root are a tree in the sense of `Lib.FencedTree`, with the
branch pages of a format as branches (`IsBranch`).  An insertion descends to the
leaf its key belongs to and lets the tree's own leaf code work there; when that
splits the leaf, the branches on the way back take the new page or split too.

`wp_insertRecursive_grows` says what becomes of the branches for any leaf code:
the tree spans the same leaves, but for a new one behind the leaf that was split
(`Grows`).  All that the leaf code has to leave alone are the branch pages.
-/

namespace BoogyDb

open Wp WriteGuard FencedTree

/-- From `g` to `g'` no page changes but those of `pages` and new ones. -/
structure Touches [Crc32Fast] (g g' : WriteGuard) (pages : List ℕ) : Prop where
  view_eq : ∀ q, q < g.bound → q ∉ pages → g'.view q = g.view q
  bound_le : g.bound ≤ g'.bound

section

variable [Crc32Fast] {g g' g'' : WriteGuard} {pages pages' : List ℕ} {p : ℕ} {page : Page}

theorem Touches.refl (g : WriteGuard) (pages : List ℕ) : Touches g g pages :=
  ⟨fun _ _ _ => rfl, le_rfl⟩

theorem Touches.trans (h : Touches g g' pages) (h' : Touches g' g'' pages) :
    Touches g g'' pages where
  view_eq q hq hnot := by
    rw [h'.view_eq q (hq.trans_le h.bound_le) hnot, h.view_eq q hq hnot]
  bound_le := h.bound_le.trans h'.bound_le

theorem Touches.mono (h : Touches g g' pages) (hsub : pages ⊆ pages') : Touches g g' pages' :=
  ⟨fun q hq hnot => h.view_eq q hq fun hmem => hnot (hsub hmem), h.bound_le⟩

theorem Touches.put (hputs : Puts g g' p page) : Touches g g' [p] where
  view_eq q _ hnot := hputs.view_of_ne (by simpa using hnot)
  bound_le := hputs.bound.ge

theorem Touches.allocate (halloc : Allocates g g') : Touches g g' [] where
  view_eq q hq _ := halloc.view_of_ne hq.ne
  bound_le := by
    rw [halloc.bound]
    exact Nat.le_succ _

/-- A put on a page that was not there at first. -/
theorem Touches.put_new (h : Touches g g' pages) (hputs : Puts g' g'' p page) (hp : g.bound ≤ p) :
    Touches g g'' pages where
  view_eq q hq hnot := by
    rw [hputs.view_of_ne (hq.trans_le hp).ne, h.view_eq q hq hnot]
  bound_le := h.bound_le.trans hputs.bound.ge

end

/-! ## Trees of pages -/

variable {κ : Type} {fmt : BranchFormat κ} [Crc32Fast]

/-- The page `p` is a branch with these children and separators. -/
def IsBranch (fmt : BranchFormat κ) (v : ℕ → Result Page) (p : ℕ) (children : List ℕ)
    (keys : List κ) : Prop :=
  v p = .ok (fmt.branchPage children keys) ∧ fmt.BranchFits children keys

/-- The branches of a tree are where they were. -/
theorem spans_congr {v v' : ℕ → Result Page} {d : ℕ} {s : Segment κ}
    (h : Spans (IsBranch fmt v) d s) (heq : ∀ p ∈ s.branches, v' p = v p) :
    Spans (IsBranch fmt v') d s :=
  h.mono fun p hp children keys hbranch => ⟨by rw [heq p hp, hbranch.1], hbranch.2⟩

/-- The leaves that take the place of a leaf after an insertion. -/
def newSpans (fmt : BranchFormat κ) (leaf : WithBot κ × ℕ) :
    InsertResult κ → List (WithBot κ × ℕ)
  | .fit => [leaf]
  | .split newPage sep => [leaf, (fmt.norm sep, newPage)]

/-- The trees that take the place of a tree, as the branch above learns of them. -/
inductive Reports (fmt : BranchFormat κ) (s : Segment κ) :
    InsertResult κ → List (Segment κ) → Prop
  | fit {t : Segment κ} (hfence : t.fence = s.fence) (hpage : t.page = s.page) :
      Reports fmt s .fit [t]
  | split {t u : Segment κ} {newPage : ℕ} {sep : κ} (hfence : t.fence = s.fence)
      (hpage : t.page = s.page) (hnew : u.page = newPage) (hsep : u.fence = fmt.norm sep)
      (hlimit : newPage < pageNoLimit) : Reports fmt s (.split newPage sep) [t, u]

/-- The tree of `s` has become the trees `out`, which have the leaves `leaves` and
the branches of `s` and of the new pages `fresh`. -/
structure Grows (fmt : BranchFormat κ) (v : ℕ → Result Page) (d : ℕ) (s : Segment κ)
    (leaves : List (WithBot κ × ℕ)) (r : InsertResult κ) (out : List (Segment κ))
    (fresh : List ℕ) : Prop where
  reports : Reports fmt s r out
  spans : ∀ t ∈ out, Spans (IsBranch fmt v) d t
  leaves_eq : out.flatMap Segment.leaves = leaves
  branches : (out.flatMap Segment.branches).Perm (s.branches ++ fresh)

/-- Pages that were allocated between two states. -/
structure Fresh (g g' : WriteGuard) (fresh : List ℕ) : Prop where
  nodup : fresh.Nodup
  lt_limit : ∀ p ∈ fresh, p < pageNoLimit
  le : ∀ p ∈ fresh, g.bound ≤ p
  lt : ∀ p ∈ fresh, p < g'.bound

omit [Crc32Fast] in
theorem Fresh.nil {g g' : WriteGuard} : Fresh g g' [] :=
  ⟨List.nodup_nil, by simp, by simp, by simp⟩

omit [Crc32Fast] in
theorem Fresh.append {g g' g'' : WriteGuard} {fresh fresh' : List ℕ} (h : Fresh g g' fresh)
    (h' : Fresh g' g'' fresh') (hle : g.bound ≤ g'.bound) (hle' : g'.bound ≤ g''.bound) :
    Fresh g g'' (fresh ++ fresh') where
  nodup := List.nodup_append.mpr ⟨h.nodup, h'.nodup, fun a ha b hb =>
    ((h.lt a ha).trans_le (h'.le b hb)).ne⟩
  lt_limit p hp := (List.mem_append.mp hp).elim (h.lt_limit p) (h'.lt_limit p)
  le p hp := (List.mem_append.mp hp).elim (h.le p) fun hp => hle.trans (h'.le p hp)
  lt p hp := (List.mem_append.mp hp).elim (fun hp => (h.lt p hp).trans_le hle') (h'.lt p)

omit [Crc32Fast] in
theorem Reports.of_eq {s t : Segment κ} {r : InsertResult κ} {out : List (Segment κ)}
    (h : Reports fmt s r out) (hfence : s.fence = t.fence) (hpage : s.page = t.page) :
    Reports fmt t r out := by
  cases h with
  | fit hf hp => exact .fit (hf.trans hfence) (hp.trans hpage)
  | split hf hp hnew hsep hlimit =>
      exact .split (hf.trans hfence) (hp.trans hpage) hnew hsep hlimit

/-! ## Branches -/

section

variable {d : ℕ} {s t : Segment κ} {before after : List (Segment κ)} {keys : List κ}
  {g g₁ g₂ : WriteGuard}

/-- A grown child among its siblings: the trees below a branch, before the branch
itself takes a new one. -/
theorem Grows.among {leaves fresh : _} {r : InsertResult κ} {out : List (Segment κ)}
    (h : Grows fmt g₂.view d t leaves r out fresh)
    (hsegs : ∀ u ∈ before ++ t :: after, Spans (IsBranch fmt g.view) d u)
    (hframe : ∀ u ∈ before ++ after, ∀ b ∈ u.branches, g₂.view b = g.view b) :
    (∀ u ∈ before ++ out ++ after, Spans (IsBranch fmt g₂.view) d u) ∧
      (before ++ out ++ after).flatMap Segment.leaves =
        before.flatMap Segment.leaves ++ leaves ++ after.flatMap Segment.leaves ∧
      ((before ++ out ++ after).flatMap Segment.branches).Perm
        ((before ++ t :: after).flatMap Segment.branches ++ fresh) := by
  refine ⟨?_, ?_, ?_⟩
  · intro u hu
    have hside : u ∈ before ++ after → Spans (IsBranch fmt g₂.view) d u := by
      intro hmem
      refine spans_congr (hsegs u ?_) (hframe u hmem)
      rcases List.mem_append.mp hmem with hmem | hmem
      · exact List.mem_append_left _ hmem
      · exact List.mem_append_right _ (List.mem_cons_of_mem _ hmem)
    rcases List.mem_append.mp hu with hu | hu
    · rcases List.mem_append.mp hu with hu | hu
      · exact hside (List.mem_append_left _ hu)
      · exact h.spans u hu
    · exact hside (List.mem_append_right _ hu)
  · rw [List.flatMap_append, List.flatMap_append, h.leaves_eq]
  · have hcount := List.perm_iff_count.mp h.branches
    refine List.perm_iff_count.mpr fun a => ?_
    have := hcount a
    simp only [List.flatMap_append, List.flatMap_cons, List.count_append] at this ⊢
    omega

/-- A branch page above `segs`, written with separators that are cut off. -/
theorem isBranch_of_view {v : ℕ → Result Page} {p : ℕ} {segs : List (Segment κ)} {keys : List κ}
    {f : WithBot κ} (hview : v p = .ok (fmt.branchPage (segs.map Segment.page) keys))
    (hfences : segs.map Segment.fence = f :: (keys.map fmt.norm).map WithBot.some)
    (hle : keys.length ≤ fmt.maxKeys) (hlimit : ∀ u ∈ segs, u.page < pageNoLimit) :
    IsBranch fmt v p (segs.map Segment.page) (keys.map fmt.norm) := by
  have hlen := congrArg List.length hfences
  simp only [List.length_map, List.length_cons] at hlen
  refine ⟨by rw [BranchFormat.branchPage_map_norm, hview], .of_lengths (by simpa using hlen) hle ?_⟩
  intro child hchild
  obtain ⟨u, hu, rfl⟩ := List.mem_map.mp hchild
  exact hlimit u hu

/-- **A branch takes one child more**, and is cut in two when it is full. -/
theorem wp_insertIntoBranch_grows {E : Fault → WriteGuard → Prop} {u : Segment κ} {f : WithBot κ}
    {p : ℕ} {sep : κ} {segs : List (Segment κ)} {n : ℕ} (hmax : 2 ≤ fmt.maxKeys)
    (hbranch : IsBranch fmt g.view p (segs.map Segment.page) keys)
    (hfences : segs.map Segment.fence = f :: keys.map WithBot.some) (hn : n ≤ keys.length)
    (hne : keys ≠ []) (hsep : u.fence = fmt.norm sep) (hlimit : u.page < pageNoLimit)
    (hspans : ∀ x ∈ segs.insertIdx (n + 1) u, Spans (IsBranch fmt g.view) d x)
    (hp : p < g.bound)
    (hbelow : ∀ b ∈ (segs.insertIdx (n + 1) u).flatMap Segment.branches, b < g.bound ∧ b ≠ p)
    (hE : ∀ e g', AllocFault e → E e g') :
    wp (insertIntoBranch fmt p n sep u.page)
      (fun r g' => Touches g g' [p] ∧ ∃ out fresh, Fresh g g' fresh ∧
        Grows fmt g'.view (d + 1) (joined f p (segs.insertIdx (n + 1) u))
          ((segs.insertIdx (n + 1) u).flatMap Segment.leaves) r out fresh) E g := by
  obtain ⟨hview, hfits⟩ := hbranch
  set segs' := segs.insertIdx (n + 1) u with hsegs'
  set keys' := moreKeys keys n sep with hkeys'
  have hlensegs : segs.length = keys.length + 1 := by
    have := congrArg List.length hfences
    simpa using this
  have hchildren : moreChildren (segs.map Segment.page) n u.page = segs'.map Segment.page :=
    (List.map_insertIdx _ _ _ _).symm
  have hnorm : keys'.map fmt.norm = keys.insertIdx n (fmt.norm sep) := by
    rw [hkeys', moreKeys, List.map_insertIdx]
    congr 1
    conv_rhs => rw [← List.map_id keys]
    exact List.map_congr_left hfits.norm_eq
  have hfences' : segs'.map Segment.fence = f :: (keys'.map fmt.norm).map WithBot.some := by
    rw [hnorm]
    exact fences_insertIdx hfences hsep
  have hlimit' : ∀ x ∈ segs', x.page < pageNoLimit := by
    intro x hx
    rcases List.eq_or_mem_of_mem_insertIdx hx with rfl | hx
    · exact hlimit
    · exact hfits.lt_limit _ (List.mem_map_of_mem hx)
  have hlen' : keys'.length = keys.length + 1 := List.length_insertIdx_of_le_length hn sep
  -- the trees below are not touched by what happens to the branch page
  have hkeep : ∀ {g' : WriteGuard}, Touches g g' [p] → ∀ x ∈ segs',
      Spans (IsBranch fmt g'.view) d x := by
    intro g' ht x hx
    refine spans_congr (hspans x hx) fun b hb => ?_
    obtain ⟨hlt, hbp⟩ := hbelow b (List.mem_flatMap.mpr ⟨x, hx, hb⟩)
    exact ht.view_eq b hlt (by simpa using hbp)
  have hposkeys := List.length_pos_iff.mpr hne
  refine wp_insertIntoBranch hview hfits hn rfl ?_ ?_ fun e g₁ he _ => hE e g₁ he
  · intro hroom g' hputs
    have ht := Touches.put hputs
    refine ⟨ht, [joined f p segs'], [], .nil, ⟨.fit rfl rfl, ?_, ?_, ?_⟩⟩
    · intro x hx
      obtain rfl := List.mem_singleton.mp hx
      refine .joined (isBranch_of_view ?_ hfences' (by omega) hlimit') hfences' ?_ (hkeep ht)
      · rw [hputs.view_self, hchildren]
      · rw [← List.length_pos_iff, List.length_map, hlen']
        exact Nat.succ_pos _
    · exact List.flatMap_singleton _ _
    · rw [List.flatMap_singleton, List.append_nil]
  · intro hfull splitKey hsplit g₁ g₂ g₃ hputs₁ halloc hputs₃
    rw [hchildren] at hputs₁ hputs₃
    have hb₁ := hputs₁.bound
    have hmid : (keys.length + 1) / 2 < keys'.length := by omega
    set mid := (keys.length + 1) / 2 with hmid'
    have ht₂ : Touches g g₂ [p] :=
      (Touches.put hputs₁).trans ((Touches.allocate halloc).mono (by simp))
    have ht : Touches g g₃ [p] := ht₂.put_new hputs₃ le_rfl
    have hbound₃ : g₃.bound = g.bound + 1 := by rw [hputs₃.bound, halloc.bound, hb₁]
    have hlimitNew : g.bound < pageNoLimit := hb₁ ▸ halloc.bound_lt
    have hsplit' : (keys'.map fmt.norm)[mid]? = some (fmt.norm splitKey) := by
      rw [List.getElem?_map, hsplit]
      rfl
    have hleft := fences_take hfences' mid
    have hright := fences_drop hfences' hsplit'
    rw [← List.map_take] at hleft
    rw [← List.map_drop] at hright
    refine ⟨ht, [joined f p (segs'.take (mid + 1)), joined (fmt.norm splitKey) g.bound
      (segs'.drop (mid + 1))], [g.bound], ?_, ?_, ?_, ?_, ?_⟩
    · exact ⟨List.nodup_singleton _, by simpa using hlimitNew, by simp, by
        simp [hbound₃]⟩
    · exact .split rfl rfl rfl rfl hlimitNew
    · intro x hx
      rcases List.mem_pair.mp hx with rfl | rfl
      · refine .joined (isBranch_of_view ?_ hleft ?_ fun x hx => hlimit' x
          (List.mem_of_mem_take hx)) hleft ?_ fun x hx => hkeep ht x (List.mem_of_mem_take hx)
        · rw [hputs₃.view_of_ne hp.ne, halloc.view_of_ne (hb₁ ▸ hp.ne), hputs₁.view_self,
            List.map_take]
        · rw [List.length_take]
          have := hfits.length_le
          omega
        · rw [← List.length_pos_iff, List.length_map, List.length_take]
          omega
      · refine .joined (isBranch_of_view ?_ hright ?_ fun x hx => hlimit' x
          (List.mem_of_mem_drop hx)) hright ?_ fun x hx => hkeep ht x (List.mem_of_mem_drop hx)
        · rw [hputs₃.view_self, List.map_drop]
        · rw [List.length_drop]
          have := hfits.length_le
          omega
        · rw [← List.length_pos_iff, List.length_map, List.length_drop]
          -- a full page has two keys or more, so the right part keeps one
          omega
    · show (segs'.take (mid + 1)).flatMap Segment.leaves ++
        ((segs'.drop (mid + 1)).flatMap Segment.leaves ++ []) = segs'.flatMap Segment.leaves
      rw [List.append_nil, ← List.flatMap_append, List.take_append_drop]
    · have hparts : segs'.flatMap Segment.branches =
          (segs'.take (mid + 1)).flatMap Segment.branches ++
            (segs'.drop (mid + 1)).flatMap Segment.branches := by
        rw [← List.flatMap_append, List.take_append_drop]
      show (p :: (segs'.take (mid + 1)).flatMap Segment.branches ++
        (g.bound :: (segs'.drop (mid + 1)).flatMap Segment.branches ++ [])).Perm
          (p :: segs'.flatMap Segment.branches ++ [g.bound])
      rw [hparts]
      refine List.perm_iff_count.mpr fun a => ?_
      simp only [List.count_append, List.count_cons, List.count_nil]
      omega

end

/-! ## The recursion -/

section

variable [LinearOrder κ] {d : ℕ} {s : Segment κ} {g : WriteGuard} {key : κ} {depthError : String}
  {intoLeaf : ℕ → Page → StateResult WriteGuard (InsertResult κ)}
  {R : ℕ → InsertResult κ → WriteGuard → Prop} {E : Fault → WriteGuard → Prop}

omit [Crc32Fast] in
/-- A leaf located below a child is located below the branch. -/
theorem Located.lift {t : Segment κ} {before after : List (Segment κ)}
    {pre post : List (WithBot κ × ℕ)} {leaf : WithBot κ × ℕ}
    (h : Located t.leaves key pre leaf post)
    (hafter : ∀ l ∈ after.flatMap Segment.leaves, (key : WithBot κ) < l.1) :
    Located ((before ++ t :: after).flatMap Segment.leaves) key
      (before.flatMap Segment.leaves ++ pre) leaf (post ++ after.flatMap Segment.leaves) := by
  refine ⟨?_, h.le, ?_⟩
  · rw [List.flatMap_append, List.flatMap_cons, h.eq]
    simp only [List.append_assoc, List.cons_append]
  · intro l hl
    rcases List.mem_append.mp hl with hl | hl
    · exact h.lt l hl
    · exact hafter l hl

/-- **What an insertion makes of a tree.**  It works on the leaf its key belongs to;
if that leaf is split, the tree spans the new leaf too, and has new branches. -/
theorem wp_insertRecursive_grows (fuel : ℕ) (hmax : 2 ≤ fmt.maxKeys)
    (hspans : Spans (IsBranch fmt g.view) d s) (hinc : Increasing s.leaves) (hkey : s.fence ≤ key)
    (hnodup : s.branches.Nodup) (hbelow : ∀ b ∈ s.branches, b < g.bound)
    (hleaf : ∀ pre leaf post, Located s.leaves key pre leaf post →
      ∃ page, g.view leaf.2 = .ok page ∧ page.isLeaf = true ∧
        wp (intoLeaf leaf.2 page) (R leaf.2) E g)
    (hR : ∀ q r g₁, R q r g₁ → g.bound ≤ g₁.bound ∧ (∀ b ∈ s.branches, g₁.view b = g.view b) ∧
      ∀ newPage sep, r = .split newPage sep → newPage < pageNoLimit)
    (hdepth : E (.error (.corruption depthError)) g) (hE : ∀ e g', AllocFault e → E e g') :
    wp (insertRecursive fmt depthError key intoLeaf fuel s.page)
      (fun r g' => ∃ pre leaf post r₀ g₁ out fresh, Located s.leaves key pre leaf post ∧
        R leaf.2 r₀ g₁ ∧ Touches g₁ g' s.branches ∧ Fresh g₁ g' fresh ∧
        Grows fmt g'.view d s (pre ++ newSpans fmt leaf r₀ ++ post) r out fresh) E g := by
  induction fuel generalizing d s with
  | zero => exact hdepth
  | succ fuel ih =>
      unfold insertRecursive
      rw [wp_bind]
      cases d with
      | zero =>
          obtain ⟨hleaves, hbranches⟩ := hspans
          have hloc : Located s.leaves key [] (s.fence, s.page) [] := ⟨hleaves, hkey, by simp⟩
          obtain ⟨page, hview, hisLeaf, hwp⟩ := hleaf _ _ _ hloc
          refine wp_readPage hview ?_
          rw [if_pos hisLeaf]
          refine hwp.post fun r g₁ hr => ?_
          refine ⟨[], (s.fence, s.page), [], r, g₁, ?_⟩
          rw [List.nil_append, List.append_nil]
          cases r with
          | fit =>
              refine ⟨[s], [], hloc, hr, .refl g₁ _, .nil, ⟨.fit rfl rfl, ?_, ?_, ?_⟩⟩
              · intro t ht
                obtain rfl := List.mem_singleton.mp ht
                exact ⟨hleaves, hbranches⟩
              · rw [List.flatMap_singleton, hleaves]
                rfl
              · rw [List.flatMap_singleton, List.append_nil]
          | split newPage sep =>
              have hlimit := (hR _ _ _ hr).2.2 newPage sep rfl
              refine ⟨[s, ⟨fmt.norm sep, newPage, [(fmt.norm sep, newPage)], []⟩], [], hloc, hr,
                .refl g₁ _, .nil, ⟨.split rfl rfl rfl rfl hlimit, ?_, ?_, ?_⟩⟩
              · intro t ht
                rcases List.mem_pair.mp ht with rfl | rfl
                · exact ⟨hleaves, hbranches⟩
                · exact ⟨rfl, rfl⟩
              · simp only [List.flatMap_cons, List.flatMap_nil, hleaves]
                rfl
              · simp only [List.flatMap_cons, List.flatMap_nil, hbranches]
                exact List.Perm.refl _
      | succ d =>
          obtain ⟨before, t, after, keys, hj, hidx, hsegs, htkey, hafter⟩ := hspans.open hinc hkey
          obtain ⟨hview, hfits⟩ := hj.page
          have hsub : ∀ {b}, b ∈ (before ++ t :: after).flatMap Segment.branches →
              b ∈ s.branches := fun hb => hj.branches ▸ List.mem_cons_of_mem _ hb
          have htsub : t.branches ⊆ s.branches := fun b hb =>
            hsub (List.mem_flatMap.mpr ⟨t, List.mem_append_right _ List.mem_cons_self, hb⟩)
          have hpage : s.page ∈ s.branches := hj.branches ▸ List.mem_cons_self
          -- pages of other branches are not pages of the child that is descended to
          rw [hj.branches, List.nodup_cons] at hnodup
          obtain ⟨hpnot, hnodup⟩ := hnodup
          rw [List.flatMap_append, List.flatMap_cons, List.nodup_append, List.nodup_append] at hnodup
          obtain ⟨-, ⟨htnodup, -, htafter⟩, hbefore⟩ := hnodup
          refine wp_readPage hview ?_
          rw [if_neg not_isLeaf_branchPage, wp_bind,
            wp_lift_ok (BranchFormat.findChild_branchPage hfits key)]
          obtain ⟨_, hchild⟩ := List.getElem?_eq_some_iff.mp (getElem?_routed hidx)
          dsimp only
          rw [hchild, wp_bind, hidx]
          have hlen := hj.length_eq
          rw [List.length_append, List.length_cons] at hlen
          have hrec := @ih d t (hsegs t (List.mem_append_right _ List.mem_cons_self))
            (hinc.sublist (by
              rw [hj.leaves, List.flatMap_append, List.flatMap_cons]
              exact ((List.sublist_append_left _ _).trans (List.sublist_append_right _ _)))) htkey
            htnodup (fun b hb => hbelow b (htsub hb))
            (fun pre leaf post hloc => hleaf _ _ _ (hj.leaves ▸ Located.lift hloc hafter))
            (fun q r g₁ hr => ⟨(hR q r g₁ hr).1, fun b hb => (hR q r g₁ hr).2.1 b (htsub hb),
              (hR q r g₁ hr).2.2⟩)
          refine hrec.post ?_
          rintro r g₂ ⟨pre, leaf, post, r₀, g₁, out, fresh, hloc, hr, ht, hfresh, hgrows⟩
          obtain ⟨hle₁, hkeep, -⟩ := hR _ _ _ hr
          have hloc' : Located s.leaves key (before.flatMap Segment.leaves ++ pre) leaf
              (post ++ after.flatMap Segment.leaves) := hj.leaves ▸ Located.lift hloc hafter
          -- the branches outside the child are as they were
          have hframe : ∀ b ∈ s.branches, b ∉ t.branches → g₂.view b = g.view b := by
            intro b hb hnot
            rw [ht.view_eq b ((hbelow b hb).trans_le hle₁) hnot, hkeep b hb]
          have hptnot : s.page ∉ t.branches := fun hmem => hpnot (by
            rw [List.flatMap_append, List.flatMap_cons]
            exact List.mem_append_right _ (List.mem_append_left _ hmem))
          have hpview := hframe s.page hpage hptnot
          obtain ⟨hspans', hleaves', hbranches'⟩ := hgrows.among hsegs (by
            intro u hu b hb
            rcases List.mem_append.mp hu with hu | hu
            · have hmem := List.mem_flatMap.mpr ⟨u, hu, hb⟩
              refine hframe b (hsub ?_) fun hbt => ?_
              · rw [List.flatMap_append]
                exact List.mem_append_left _ hmem
              · exact hbefore b hmem b (List.mem_append_left _ hbt) rfl
            · have hmem := List.mem_flatMap.mpr ⟨u, hu, hb⟩
              refine hframe b (hsub ?_) fun hbt => ?_
              · rw [List.flatMap_append, List.flatMap_cons]
                exact List.mem_append_right _ (List.mem_append_right _ hmem)
              · exact htafter b hbt b hmem rfl)
          have hall : ∀ leaves, before.flatMap Segment.leaves ++ (pre ++ leaves ++ post) ++
              after.flatMap Segment.leaves = before.flatMap Segment.leaves ++ pre ++ leaves ++
                (post ++ after.flatMap Segment.leaves) := fun leaves => by
            simp only [List.append_assoc]
          rw [hall] at hleaves'
          cases hgrows.reports with
          | @fit t' hfence' hpage' =>
              rw [List.append_assoc, List.singleton_append] at hspans' hleaves' hbranches'
              have hpages : (before ++ t' :: after).map Segment.page =
                  (before ++ t :: after).map Segment.page := by simp [hpage']
              have hfences : (before ++ t' :: after).map Segment.fence =
                  (before ++ t :: after).map Segment.fence := by simp [hfence']
              refine ⟨_, leaf, _, r₀, g₁, [joined s.fence s.page (before ++ t' :: after)], fresh,
                hloc', hr, ht.mono htsub, hfresh, ⟨.fit rfl rfl, ?_, ?_, ?_⟩⟩
              · intro u hu
                obtain rfl := List.mem_singleton.mp hu
                refine .joined ⟨?_, ?_⟩ (hfences.trans hj.fences) hj.keys_ne hspans'
                · rw [hpview, hview, hpages]
                · rw [hpages]
                  exact hfits
              · rw [List.flatMap_singleton]
                exact hleaves'
              · rw [List.flatMap_singleton, hj.branches]
                exact hbranches'.cons _
          | @split t' u newPage sep hfence' hpage' hnew hsep hlimit =>
              subst hnew
              have hsegs' : (before ++ t' :: after).insertIdx (before.length + 1) u =
                  before ++ [t', u] ++ after := by
                rw [insertIdx_after, List.append_assoc]
                rfl
              have hpages : (before ++ t' :: after).map Segment.page =
                  (before ++ t :: after).map Segment.page := by simp [hpage']
              have hfences : (before ++ t' :: after).map Segment.fence =
                  (before ++ t :: after).map Segment.fence := by simp [hfence']
              have hbranch : IsBranch fmt g₂.view s.page
                  ((before ++ t' :: after).map Segment.page) keys := by
                rw [hpages]
                exact ⟨by rw [hpview, hview], hfits⟩
              have hp₂ : s.page < g₂.bound :=
                (hbelow _ hpage).trans_le (hle₁.trans ht.bound_le)
              have hins := @wp_insertIntoBranch_grows _ fmt _ d keys g₂ E u s.fence s.page sep
                (before ++ t' :: after) before.length hmax hbranch (hfences.trans hj.fences)
                (by omega) hj.keys_ne hsep hlimit (hsegs'.symm ▸ hspans') hp₂ (by
                  intro b hb
                  rw [hsegs', hbranches'.mem_iff] at hb
                  rcases List.mem_append.mp hb with hb | hb
                  · refine ⟨(hbelow b (hsub hb)).trans_le (hle₁.trans ht.bound_le), ?_⟩
                    rintro rfl
                    exact hpnot hb
                  · exact ⟨hfresh.lt b hb,
                      (((hbelow _ hpage).trans_le hle₁).trans_le (hfresh.le b hb)).ne'⟩) hE
              refine hins.post ?_
              rintro r' g₃ ⟨ht₃, out', fresh', hfresh', hgrows'⟩
              rw [hsegs'] at hgrows'
              refine ⟨_, leaf, _, r₀, g₁, out', fresh ++ fresh', hloc', hr,
                (ht.mono htsub).trans (ht₃.mono (by simpa using hpage)),
                hfresh.append hfresh' ht.bound_le ht₃.bound_le,
                ⟨hgrows'.reports.of_eq rfl rfl, hgrows'.spans, hgrows'.leaves_eq.trans hleaves', ?_⟩⟩
              refine hgrows'.branches.trans ?_
              rw [hj.branches]
              have hcount := List.perm_iff_count.mp hbranches'
              refine List.perm_iff_count.mpr fun a => ?_
              have := hcount a
              simp only [joined, List.count_append, List.count_cons] at this ⊢
              omega

end

end BoogyDb
