import BoogyDb.RowScan
import BoogyDb.ScanBatch

/-!
# Walking the leaves in a direction

A scan in order goes along the leaf chain by the `next` pointers or by the `prev` pointers,
and through each leaf in the same direction.  Over a chain that is linked both ways it is one
loop over the cells of the leaves in that direction (`walkToward_visit`).
-/

namespace BoogyDb

open Bytes WriteGuard FencedTree StopLoop

/-! ## Directions -/

section

variable {α β : Type}

@[simp] theorem SortDir.mem_order {dir : SortDir} {xs : List α} {x : α} :
    x ∈ dir.order xs ↔ x ∈ xs := by
  cases dir with
  | asc => exact Iff.rfl
  | desc => exact List.mem_reverse

theorem SortDir.order_map (dir : SortDir) (f : α → β) (xs : List α) :
    dir.order (xs.map f) = (dir.order xs).map f := by
  cases dir with
  | asc => rfl
  | desc => exact List.map_reverse.symm

/-- The items of lists that are taken in a direction, each in that direction. -/
theorem SortDir.order_flatMap (dir : SortDir) (f : α → List β) (xs : List α) :
    dir.order (xs.flatMap f) = (dir.order xs).flatMap fun x => dir.order (f x) := by
  cases dir with
  | asc => rfl
  | desc =>
      show (xs.flatMap f).reverse = xs.reverse.flatMap fun x => (f x).reverse
      rw [List.reverse_flatMap]
      rfl

end

/-! ## One leaf -/

section

variable [Crc32Fast] {β : Type} {rows : List (List UInt8)} {next prev : ℕ}
  {step : β → List UInt8 → Result (β × Bool)}

/-- A loop over a leaf page in a direction. -/
theorem scanRows_order (hfits : Fits rows) (hne : ∀ row ∈ rows, row ≠ []) (dir : SortDir)
    (acc : β) :
    scanRows (leafPage rows next prev) step
        (dir.order (List.range (leafPage rows next prev).numRows)) acc =
      visit step (dir.order rows) acc := by
  rw [numRows_leafPage hfits, scanRows_positions hfits hne (fun i hi => by
    rw [SortDir.mem_order] at hi
    exact List.mem_range.mp hi), ← SortDir.order_map, map_getD_range]

end

/-! ## The chain -/

section

variable [Crc32Fast] {κ α β : Type} [LinearOrder κ] {cell : κ × α → List UInt8}
  {read : ℕ → Result Page} {dir : SortDir} {l : Leaf κ α} {leaves rest : List (Leaf κ α)}
  {before after : ℕ}

/-- The leaves are on their pages, each linked to the one that comes next in the direction. -/
def LinkedToward (cell : κ × α → List UInt8) (read : ℕ → Result Page) (dir : SortDir) :
    List (Leaf κ α) → Prop
  | [] => True
  | l :: rest =>
      (∃ next prev, read l.page = .ok (leafPage (rowsOf cell l) next prev) ∧
        dir.link (leafPage (rowsOf cell l) next prev) = nextPage rest 0) ∧
      LinkedToward cell read dir rest

omit [LinearOrder κ] in
theorem linkedToward_asc (h : Chained cell read before leaves 0)
    (hbelow : ∀ l ∈ leaves, l.page < pageNoLimit) : LinkedToward cell read .asc leaves := by
  induction leaves generalizing before with
  | nil => trivial
  | cons l rest ih =>
      obtain ⟨⟨hview, -⟩, hrest⟩ := h
      rw [List.forall_mem_cons] at hbelow
      refine ⟨⟨_, _, hview, nextLeaf_leafPage ?_⟩, ih hrest hbelow.2⟩
      cases rest with
      | nil => exact Nat.two_pow_pos _
      | cons q rest => exact hbelow.2 q List.mem_cons_self

omit [Crc32Fast] [LinearOrder κ] in
/-- The page before a chain is the first one backward. -/
theorem lastPage_eq_nextPage (leaves : List (Leaf κ α)) (before : ℕ) :
    lastPage before leaves = nextPage leaves.reverse before := by
  induction leaves using List.reverseRecOn with
  | nil => rfl
  | append_singleton leaves l ih =>
      rw [lastPage_append, List.reverse_append]
      rfl

omit [LinearOrder κ] in
theorem linkedToward_desc (h : Chained cell read 0 leaves after)
    (hbelow : ∀ l ∈ leaves, l.page < pageNoLimit) :
    LinkedToward cell read .desc leaves.reverse := by
  induction leaves using List.reverseRecOn generalizing after with
  | nil => trivial
  | append_singleton leaves l ih =>
      obtain ⟨hinit, ⟨hview, -⟩, -⟩ := chained_append.mp h
      have hbelow' : ∀ q ∈ leaves, q.page < pageNoLimit := fun q hq =>
        hbelow q (List.mem_append_left _ hq)
      rw [List.reverse_append]
      refine ⟨⟨_, _, hview, ?_⟩, ih hinit hbelow'⟩
      have hlast : lastPage 0 leaves < pageNoLimit := by
        rcases lastPage_mem leaves 0 with heq | hmem
        · rw [heq]
          exact Nat.two_pow_pos _
        · obtain ⟨q, hq, heq⟩ := List.mem_map.mp hmem
          rw [← heq]
          exact hbelow' q hq
      show (leafPage _ _ _).prevLeaf = nextPage leaves.reverse 0
      rw [prevLeaf_leafPage hlast, lastPage_eq_nextPage]

omit [LinearOrder κ] in
theorem linkedToward_suffix {passed : List (Leaf κ α)}
    (h : LinkedToward cell read dir (passed ++ leaves)) : LinkedToward cell read dir leaves := by
  induction passed with
  | nil => exact h
  | cons l passed ih => exact ih h.2

omit [LinearOrder κ] in
/-- **A walk in a direction is one loop over the cells in that direction.** -/
theorem walkToward_visit {step : β → List UInt8 → Result (β × Bool)} {cycleError : String}
    {visitPage : Page → β → Result (β × Bool)} {fuel : ℕ} {acc : β}
    (h : LinkedToward cell read dir (l :: rest))
    (hvisit : ∀ q ∈ l :: rest, ∀ next prev acc,
      visitPage (leafPage (rowsOf cell q) next prev) acc =
        visit step (dir.order (rowsOf cell q)) acc)
    (hpages : ∀ q ∈ rest, q.page ≠ 0) (hfuel : rest.length < fuel) :
    walkToward dir cycleError read visitPage fuel l.page acc =
      (visit step ((l :: rest).flatMap fun q => dir.order (rowsOf cell q)) acc >>= fun r =>
        .ok r.1) := by
  induction rest generalizing l fuel acc with
  | nil =>
      obtain ⟨fuel, rfl⟩ := Nat.exists_eq_succ_of_ne_zero (Nat.ne_of_gt hfuel)
      obtain ⟨⟨next, prev, hread, hlink⟩, -⟩ := h
      rw [nextPage] at hlink
      rw [walkToward, hread, ok_bind, hvisit l List.mem_cons_self, List.flatMap_cons,
        List.flatMap_nil, List.append_nil]
      cases visit step (dir.order (rowsOf cell l)) acc with
      | error e => rfl
      | ok r =>
          rw [ok_bind, ok_bind]
          dsimp only
          rw [if_pos (Or.inr hlink), pure_eq_ok]
  | cons q rest ih =>
      obtain ⟨fuel, rfl⟩ := Nat.exists_eq_succ_of_ne_zero (Nat.ne_of_gt (Nat.zero_lt_of_lt hfuel))
      obtain ⟨⟨next, prev, hread, hlink⟩, hrest⟩ := h
      rw [nextPage] at hlink
      rw [List.forall_mem_cons] at hpages
      rw [walkToward, hread, ok_bind, hvisit l List.mem_cons_self, List.flatMap_cons, visit_append]
      cases visit step (dir.order (rowsOf cell l)) acc with
      | error e => rfl
      | ok r =>
          obtain ⟨acc', done⟩ := r
          rw [ok_bind, ok_bind]
          dsimp only
          rw [hlink]
          by_cases hend : done = true
          · rw [if_pos (Or.inl hend), if_pos hend, pure_eq_ok, ok_bind]
          · rw [if_neg (by simp [hend, hpages.1]), if_neg hend]
            exact ih hrest (fun q hq => hvisit q (List.mem_cons_of_mem _ hq)) hpages.2
              (Nat.lt_of_succ_lt_succ hfuel)

end

/-! ## Where a walk starts -/

section

variable {κ α : Type} [LinearOrder κ] {pre post : List (Leaf κ α)} {l : Leaf κ α}
  {after : Option κ}

/-- What a walk from a leaf on passes by, in the direction it goes. -/
structure StartsAt (leaves : List (Leaf κ α)) (dir : SortDir) (after : Option κ) (l : Leaf κ α)
    (rest : List (Leaf κ α)) : Prop where
  /-- The walk passes by the leaves from this one to the end. -/
  leaves_eq : ∃ passed, dir.order leaves = passed ++ l :: rest
  /-- Nothing that it does not pass by is beyond the bound. -/
  beyond : (dir.order (contents leaves)).filter (fun e => dir.beyond after e.1) =
    ((l :: rest).flatMap fun q => dir.order q.entries).filter fun e => dir.beyond after e.1

theorem startsAt_asc
    (hpre : ∀ q ∈ pre, ∀ e ∈ q.entries, SortDir.asc.beyond after e.1 = false) :
    StartsAt (pre ++ l :: post) .asc after l post := by
  refine ⟨⟨pre, rfl⟩, ?_⟩
  show (contents (pre ++ l :: post)).filter _ = (contents (l :: post)).filter _
  rw [contents_append, List.filter_append, List.filter_eq_nil_iff.mpr, List.nil_append]
  intro e he
  obtain ⟨q, hq, he⟩ := List.mem_flatMap.mp he
  rw [hpre q hq e he]
  exact Bool.false_ne_true

theorem startsAt_desc
    (hpost : ∀ q ∈ post, ∀ e ∈ q.entries, SortDir.desc.beyond after e.1 = false) :
    StartsAt (pre ++ l :: post) .desc after l pre.reverse := by
  refine ⟨⟨post.reverse, ?_⟩, ?_⟩
  · show (pre ++ l :: post).reverse = _
    rw [List.reverse_append, List.reverse_cons, List.append_assoc]
    rfl
  · have hcontents : SortDir.desc.order (contents (pre ++ l :: post)) =
        (contents post).reverse ++
          (l :: pre.reverse).flatMap fun q => SortDir.desc.order q.entries := by
      have hsplit : contents (pre ++ l :: post) = contents (pre ++ [l]) ++ contents post := by
        rw [← contents_append, List.append_assoc]
        rfl
      rw [hsplit]
      show (contents (pre ++ [l]) ++ contents post).reverse = _
      rw [List.reverse_append]
      congr 1
      have := SortDir.order_flatMap .desc Leaf.entries (pre ++ [l])
      refine this.trans ?_
      show List.flatMap _ (pre ++ [l]).reverse = _
      rw [List.reverse_append]
      rfl
    rw [hcontents, List.filter_append, List.filter_eq_nil_iff.mpr, List.nil_append]
    intro e he
    obtain ⟨q, hq, he⟩ := List.mem_flatMap.mp (List.mem_reverse.mp he)
    rw [hpost q hq e he]
    exact Bool.false_ne_true

end

end BoogyDb
