import Mathlib.Data.List.Sort
import Mathlib.Order.Compare

/-!
# Stable sorts by several keys

`sliceSortBy` is `slice::sort_by`: a short slice is sorted by insertion, whatever the comparator
is; what becomes of a longer one is only documented for a total preorder on its elements.

A comparator that is one sorts the list, and leaves elements that compare equal in the order in
which they came (`pairwise_sliceSortBy`).  Sorting by several comparators, the last one first, is
sorting by their lexicographic combination (`pairwise_sortByAll`).
-/

namespace StableSort

variable {α β : Type} {cmp : α → α → Ordering} {cmps : List (α → α → Ordering)} {l l' : List α}
  {R : α → α → Prop}

/-- `cmp` is a total preorder on the elements of `l`. -/
structure PreorderOn (cmp : α → α → Ordering) (l : List α) : Prop where
  swap : ∀ a ∈ l, ∀ b ∈ l, cmp b a = (cmp a b).swap
  trans : ∀ a ∈ l, ∀ b ∈ l, ∀ c ∈ l, cmp a b ≠ .gt → cmp b c ≠ .gt → cmp a c ≠ .gt

instance (cmp : α → α → Ordering) (l : List α) : Decidable (PreorderOn cmp l) :=
  decidable_of_iff
    ((∀ a ∈ l, ∀ b ∈ l, cmp b a = (cmp a b).swap) ∧
      ∀ a ∈ l, ∀ b ∈ l, ∀ c ∈ l, cmp a b ≠ .gt → cmp b c ≠ .gt → cmp a c ≠ .gt)
    ⟨fun h => ⟨h.1, h.2⟩, fun h => ⟨h.swap, h.trans⟩⟩

theorem PreorderOn.perm (h : PreorderOn cmp l) (hl : l.Perm l') : PreorderOn cmp l' where
  swap a ha b hb := h.swap a (hl.mem_iff.mpr ha) b (hl.mem_iff.mpr hb)
  trans a ha b hb c hc := h.trans a (hl.mem_iff.mpr ha) b (hl.mem_iff.mpr hb) c (hl.mem_iff.mpr hc)

/-- A comparator of images is a preorder when the comparator is one on the images. -/
theorem preorderOn_map_iff {f : β → α} {l : List β} :
    PreorderOn (fun a b => cmp (f a) (f b)) l ↔ PreorderOn cmp (l.map f) := by
  constructor
  · intro h
    refine ⟨?_, ?_⟩
    · simp only [List.forall_mem_map]
      exact h.swap
    · simp only [List.forall_mem_map]
      exact h.trans
  · intro h
    exact ⟨fun a ha b hb => h.swap _ (List.mem_map_of_mem ha) _ (List.mem_map_of_mem hb),
      fun a ha b hb c hc => h.trans _ (List.mem_map_of_mem ha) _ (List.mem_map_of_mem hb) _
        (List.mem_map_of_mem hc)⟩

/-- The reversed comparator. -/
theorem PreorderOn.reverse (h : PreorderOn cmp l) : PreorderOn (fun a b => (cmp a b).swap) l where
  swap a ha b hb := congrArg Ordering.swap (h.swap a ha b hb)
  trans a ha b hb c hc hab hbc := by
    rw [← h.swap a ha b hb] at hab
    rw [← h.swap b hb c hc] at hbc
    rw [← h.swap a ha c hc]
    exact h.trans c hc b hb a ha hbc hab

theorem preorderOn_reverse_iff : PreorderOn (fun a b => (cmp a b).swap) l ↔ PreorderOn cmp l := by
  refine ⟨fun h => ?_, PreorderOn.reverse⟩
  have hback := h.reverse
  simp only [Ordering.swap_swap] at hback
  exact hback

/-! ## Merge sort -/

/-- A stable sort. -/
def sortBy (cmp : α → α → Ordering) (l : List α) : List α := l.mergeSort fun a b => cmp a b != .gt

theorem sortBy_perm (cmp : α → α → Ordering) (l : List α) : (sortBy cmp l).Perm l :=
  List.mergeSort_perm _ _

/-- A comparator of images sorts the elements as it sorts their images. -/
theorem map_sortBy {f : β → α} (cmp : α → α → Ordering) (l : List β) :
    (sortBy (fun a b => cmp (f a) (f b)) l).map f = sortBy cmp (l.map f) :=
  List.map_mergeSort fun _ _ _ _ => rfl

/-- With a comparator that is a preorder throughout, ties stay in their order. -/
theorem pairwise_mergeSort_stable {le : α → α → Bool} (htrans : ∀ a b c, le a b → le b c → le a c)
    (htotal : ∀ a b, le a b || le b a) (h : l.Pairwise R) :
    (l.mergeSort le).Pairwise fun a b => le a b ∧ (le b a → R a b) := by
  -- the elements with their positions are sorted by the comparator and then by position
  have hsorted := List.pairwise_mergeSort (List.zipIdxLE_trans htrans)
    (List.zipIdxLE_total htotal) l.zipIdx
  have hperm := List.mergeSort_perm l.zipIdx (List.zipIdxLE le)
  have hnodup : (l.zipIdx.mergeSort (List.zipIdxLE le)).Nodup := by
    refine hperm.nodup_iff.mpr (List.Nodup.of_map Prod.snd ?_)
    rw [List.zipIdx_map_snd]
    exact List.nodup_range'
  rw [← List.mergeSort_zipIdx, List.pairwise_map]
  refine (hsorted.and hnodup).imp_of_mem fun {p q} hp hq hpq => ?_
  obtain ⟨hle, hne⟩ := hpq
  have hp' := List.mem_zipIdx_iff_getElem?.mp (hperm.mem_iff.mp hp)
  have hq' := List.mem_zipIdx_iff_getElem?.mp (hperm.mem_iff.mp hq)
  obtain ⟨hplt, hpval⟩ := List.getElem?_eq_some_iff.mp hp'
  obtain ⟨hqlt, hqval⟩ := List.getElem?_eq_some_iff.mp hq'
  have hkeys : le p.1 q.1 = true ∧ (le q.1 p.1 = true → p.2 ≤ q.2) := by
    rw [List.zipIdxLE] at hle
    cases hpq : le p.1 q.1 <;> cases hqp : le q.1 p.1 <;> simp_all
  refine ⟨hkeys.1, fun htie => ?_⟩
  have hlt : p.2 < q.2 := by
    refine lt_of_le_of_ne (hkeys.2 htie) fun heq => hne (Prod.ext ?_ heq)
    rw [← hpval, ← hqval]
    simp only [heq]
  rw [← hpval, ← hqval]
  exact List.pairwise_iff_getElem.mp h _ _ hplt hqlt hlt

/-- **A sort by a total preorder on the elements** is ordered, and ties stay in their order. -/
theorem pairwise_sortBy (hcmp : PreorderOn cmp l) (h : l.Pairwise R) :
    (sortBy cmp l).Pairwise fun a b => cmp a b = .lt ∨ cmp a b = .eq ∧ R a b := by
  -- the elements of the list are a type on which the comparator is a preorder throughout
  have hattach : (sortBy (fun a b : {x // x ∈ l} => cmp a.1 b.1) l.attach).map Subtype.val =
      sortBy cmp l := by
    rw [map_sortBy, List.attach_map_subtype_val]
  have hR : l.attach.Pairwise fun a b => R a.1 b.1 := by
    rw [← List.attach_map_subtype_val l, List.pairwise_map] at h
    exact h
  have hstable := @pairwise_mergeSort_stable {x // x ∈ l} l.attach (fun a b => R a.1 b.1)
    (fun a b => cmp a.1 b.1 != .gt)
    (fun a b c hab hbc => by
      rw [bne_iff_ne] at hab hbc ⊢
      exact hcmp.trans a.1 a.2 b.1 b.2 c.1 c.2 hab hbc)
    (fun a b => by
      rw [hcmp.swap a.1 a.2 b.1 b.2]
      cases cmp a.1 b.1 <;> rfl)
    hR
  rw [← hattach, List.pairwise_map]
  refine hstable.imp fun {a b} hab => ?_
  obtain ⟨hle, htie⟩ := hab
  rw [hcmp.swap a.1 a.2 b.1 b.2] at htie
  cases hord : cmp a.1 b.1 with
  | lt => exact .inl rfl
  | eq => exact .inr ⟨rfl, htie (by rw [hord]; rfl)⟩
  | gt =>
      rw [hord] at hle
      cases hle

/-! ## Insertion sort -/

section

variable (cmp : α → α → Ordering)

/-- `insert_tail`: an element moves in front of those that it is less than.  The sorted elements
stand last one first. -/
def insertTail (x : α) : List α → List α
  | [] => [x]
  | y :: sorted => if cmp x y = .lt then y :: insertTail x sorted else x :: y :: sorted

/-- `insertion_sort_shift_left`. -/
def insertionSort (l : List α) : List α :=
  (l.foldl (fun sorted x => insertTail cmp x sorted) []).reverse

/-- `slice::sort_by`: none where the result is not specified. -/
def sliceSortBy (l : List α) : Option (List α) :=
  if l.length ≤ 20 then some (insertionSort cmp l)
  else if PreorderOn cmp l then some (sortBy cmp l)
  else none

end

variable {x : α} {sorted : List α}

theorem insertTail_perm (cmp : α → α → Ordering) (x : α) (sorted : List α) :
    (insertTail cmp x sorted).Perm (x :: sorted) := by
  induction sorted with
  | nil => exact .refl _
  | cons y sorted ih =>
      rw [insertTail]
      split
      · exact (ih.cons y).trans (.swap x y sorted)
      · exact .refl _

theorem foldl_insertTail_perm (cmp : α → α → Ordering) (l sorted : List α) :
    (l.foldl (fun sorted x => insertTail cmp x sorted) sorted).Perm (l ++ sorted) := by
  induction l generalizing sorted with
  | nil => exact .refl _
  | cons x l ih =>
      rw [List.foldl_cons]
      refine (ih _).trans (((insertTail_perm cmp x sorted).append_left l).trans ?_)
      exact List.perm_middle

theorem insertionSort_perm (cmp : α → α → Ordering) (l : List α) :
    (insertionSort cmp l).Perm l := by
  have hperm := foldl_insertTail_perm cmp l []
  rw [List.append_nil] at hperm
  exact (List.reverse_perm _).trans hperm

/-- **An element that comes after the sorted ones** goes behind those that compare equal. -/
theorem pairwise_insertTail (hcmp : PreorderOn cmp (x :: sorted)) (hR : ∀ y ∈ sorted, R y x)
    (h : sorted.Pairwise fun b a => cmp a b = .lt ∨ cmp a b = .eq ∧ R a b) :
    (insertTail cmp x sorted).Pairwise fun b a => cmp a b = .lt ∨ cmp a b = .eq ∧ R a b := by
  induction sorted with
  | nil => exact List.pairwise_singleton _ _
  | cons y sorted ih =>
      obtain ⟨hy, hsorted⟩ := List.pairwise_cons.mp h
      obtain ⟨hRy, hR⟩ := List.forall_mem_cons.mp hR
      have hx : x ∈ x :: y :: sorted := List.mem_cons_self
      have hymem : y ∈ x :: y :: sorted := List.mem_cons_of_mem _ List.mem_cons_self
      have htail : x :: sorted ⊆ x :: y :: sorted :=
        List.cons_subset_cons x (List.subset_cons_self y sorted)
      have hcmp' : PreorderOn cmp (x :: sorted) :=
        ⟨fun a ha b hb => hcmp.swap a (htail ha) b (htail hb),
          fun a ha b hb c hc => hcmp.trans a (htail ha) b (htail hb) c (htail hc)⟩
      rw [insertTail]
      split
      · rename_i hlt
        refine List.pairwise_cons.mpr ⟨fun z hz => ?_, ih hcmp' hR hsorted⟩
        rcases List.mem_cons.mp ((insertTail_perm cmp x sorted).mem_iff.mp hz) with rfl | hz
        · exact Or.inl hlt
        · exact hy z hz
      · rename_i hnot
        have hyx : cmp y x ≠ .gt := by
          rw [hcmp.swap x hx y hymem]
          intro hgt
          exact hnot (Ordering.swap_eq_gt.mp hgt)
        have hlast : ∀ z ∈ y :: sorted, cmp z x ≠ .gt := by
          rw [List.forall_mem_cons]
          refine ⟨hyx, fun z hz => ?_⟩
          have hzmem := List.mem_cons_of_mem x (List.mem_cons_of_mem y hz)
          refine hcmp.trans z hzmem y hymem x hx (fun hgt => ?_) hyx
          rcases hy z hz with hlt | ⟨heq, -⟩
          · exact nomatch hlt.symm.trans hgt
          · exact nomatch heq.symm.trans hgt
        refine List.pairwise_cons.mpr ⟨fun z hz => ?_, h⟩
        have hRz : R z x := by
          rcases List.mem_cons.mp hz with rfl | hz
          · exact hRy
          · exact hR z hz
        cases hord : cmp z x with
        | lt => exact Or.inl rfl
        | eq => exact Or.inr ⟨rfl, hRz⟩
        | gt => exact absurd hord (hlast z hz)

theorem pairwise_foldl_insertTail (hcmp : PreorderOn cmp (l ++ sorted)) (hl : l.Pairwise R)
    (hR : ∀ y ∈ sorted, ∀ x ∈ l, R y x)
    (h : sorted.Pairwise fun b a => cmp a b = .lt ∨ cmp a b = .eq ∧ R a b) :
    (l.foldl (fun sorted x => insertTail cmp x sorted) sorted).Pairwise
      fun b a => cmp a b = .lt ∨ cmp a b = .eq ∧ R a b := by
  induction l generalizing sorted with
  | nil => exact h
  | cons x l ih =>
      obtain ⟨hx, hl⟩ := List.pairwise_cons.mp hl
      have hperm := insertTail_perm cmp x sorted
      have hall : (x :: l ++ sorted).Perm (l ++ insertTail cmp x sorted) :=
        List.perm_middle.symm.trans (hperm.symm.append_left l)
      have hhead : PreorderOn cmp (x :: sorted) := by
        have hsub : x :: sorted ⊆ x :: l ++ sorted :=
          List.cons_subset_cons x (List.subset_append_right l sorted)
        exact ⟨fun a ha b hb => hcmp.swap a (hsub ha) b (hsub hb),
          fun a ha b hb c hc => hcmp.trans a (hsub ha) b (hsub hb) c (hsub hc)⟩
      rw [List.foldl_cons]
      refine ih (hcmp.perm hall) hl (fun y hy z hz => ?_)
        (pairwise_insertTail hhead (fun y hy => hR y hy x List.mem_cons_self) h)
      rcases List.mem_cons.mp (hperm.mem_iff.mp hy) with rfl | hy
      · exact hx z hz
      · exact hR y hy z (List.mem_cons_of_mem x hz)

/-- **An insertion by a total preorder** is ordered, and ties stay in their order. -/
theorem pairwise_insertionSort (hcmp : PreorderOn cmp l) (h : l.Pairwise R) :
    (insertionSort cmp l).Pairwise fun a b => cmp a b = .lt ∨ cmp a b = .eq ∧ R a b := by
  rw [insertionSort, List.pairwise_reverse]
  exact pairwise_foldl_insertTail (by rwa [List.append_nil]) h nofun List.Pairwise.nil

theorem map_insertTail {f : β → α} (cmp : α → α → Ordering) (x : β) (sorted : List β) :
    (insertTail (fun a b => cmp (f a) (f b)) x sorted).map f =
      insertTail cmp (f x) (sorted.map f) := by
  induction sorted with
  | nil => rfl
  | cons y sorted ih =>
      rw [insertTail, List.map_cons, insertTail, ← ih]
      split <;> rfl

theorem map_insertionSort {f : β → α} (cmp : α → α → Ordering) (l : List β) :
    (insertionSort (fun a b => cmp (f a) (f b)) l).map f = insertionSort cmp (l.map f) := by
  have hfold : ∀ sorted : List β,
      (l.foldl (fun sorted x => insertTail (fun a b => cmp (f a) (f b)) x sorted) sorted).map f =
        (l.map f).foldl (fun sorted x => insertTail cmp x sorted) (sorted.map f) := by
    induction l with
    | nil => exact fun _ => rfl
    | cons x l ih =>
        intro sorted
        rw [List.foldl_cons, ih, List.map_cons, List.foldl_cons, map_insertTail]
  rw [insertionSort, List.map_reverse, hfold, List.map_nil, insertionSort]

/-! ## Sorting a slice -/

theorem sliceSortBy_perm (h : sliceSortBy cmp l = some l') : l'.Perm l := by
  unfold sliceSortBy at h
  split at h
  · cases h
    exact insertionSort_perm cmp l
  · split at h
    · cases h
      exact sortBy_perm cmp l
    · cases h

/-- The result is specified for a total preorder. -/
theorem PreorderOn.exists_sliceSortBy (h : PreorderOn cmp l) : ∃ l', sliceSortBy cmp l = some l' := by
  unfold sliceSortBy
  rw [if_pos h]
  split <;> exact ⟨_, rfl⟩

/-- A comparator of images sorts the elements as it sorts their images. -/
theorem map_sliceSortBy {f : β → α} (cmp : α → α → Ordering) (l : List β) :
    (sliceSortBy (fun a b => cmp (f a) (f b)) l).map (List.map f) = sliceSortBy cmp (l.map f) := by
  unfold sliceSortBy
  rw [List.length_map]
  split
  · exact congrArg some (map_insertionSort cmp l)
  · by_cases h : PreorderOn cmp (l.map f)
    · rw [if_pos h, if_pos (preorderOn_map_iff.mpr h)]
      exact congrArg some (map_sortBy cmp l)
    · rw [if_neg h, if_neg fun h' => h (preorderOn_map_iff.mp h')]
      rfl

/-- **A slice that is sorted by a total preorder** is ordered, and ties stay in their order. -/
theorem pairwise_sliceSortBy (hsort : sliceSortBy cmp l = some l') (hcmp : PreorderOn cmp l)
    (h : l.Pairwise R) : l'.Pairwise fun a b => cmp a b = .lt ∨ cmp a b = .eq ∧ R a b := by
  unfold sliceSortBy at hsort
  rw [if_pos hcmp] at hsort
  split at hsort
  · cases hsort
    exact pairwise_insertionSort hcmp h
  · cases hsort
    exact pairwise_sortBy hcmp h

/-! ## Several keys -/

/-- The first comparator that tells two elements apart. -/
def lexicographic (cmps : List (α → α → Ordering)) (a b : α) : Ordering :=
  cmps.foldr (fun cmp ord => (cmp a b).then ord) .eq

/-- The last comparator sorts first. -/
def sortByAll (cmps : List (α → α → Ordering)) (l : List α) : Option (List α) :=
  cmps.foldr (fun cmp sorted => sorted.bind (sliceSortBy cmp)) (some l)

theorem sortByAll_cons {cmp : α → α → Ordering} (h : sortByAll (cmp :: cmps) l = some l') :
    ∃ rest, sortByAll cmps l = some rest ∧ sliceSortBy cmp rest = some l' :=
  Option.bind_eq_some_iff.mp h

theorem sortByAll_perm (h : sortByAll cmps l = some l') : l'.Perm l := by
  induction cmps generalizing l' with
  | nil =>
      cases h
      exact .refl l
  | cons cmp cmps ih =>
      obtain ⟨rest, hrest, hlast⟩ := sortByAll_cons h
      exact (sliceSortBy_perm hlast).trans (ih hrest)

/-- **Sorting by one comparator after the other** is lexicographic, and ties stay in their
order. -/
theorem pairwise_sortByAll (hsort : sortByAll cmps l = some l')
    (hcmps : ∀ cmp ∈ cmps, PreorderOn cmp l) (h : l.Pairwise R) :
    l'.Pairwise fun a b =>
      lexicographic cmps a b = .lt ∨ lexicographic cmps a b = .eq ∧ R a b := by
  induction cmps generalizing l' with
  | nil =>
      cases hsort
      exact h.imp fun hab => .inr ⟨rfl, hab⟩
  | cons cmp cmps ih =>
      obtain ⟨hcmp, hcmps⟩ := List.forall_mem_cons.mp hcmps
      obtain ⟨rest, hrest, hlast⟩ := sortByAll_cons hsort
      refine (pairwise_sliceSortBy hlast (hcmp.perm (sortByAll_perm hrest).symm)
        (ih hrest hcmps)).imp ?_
      intro a b hab
      have hlex : lexicographic (cmp :: cmps) a b = (cmp a b).then (lexicographic cmps a b) := rfl
      rw [hlex]
      rcases hab with hlt | ⟨heq, hrest⟩
      · exact .inl (by rw [hlt]; rfl)
      · rw [heq]
        exact hrest

end StableSort
