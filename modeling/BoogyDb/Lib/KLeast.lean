import Mathlib.Data.List.Sort
import Mathlib.Data.Set.Card

/-!
# The least elements of a finite set

`IsKLeast key s k l` says that `l` lists the `k` elements of `s` with the least keys, or all of
`s` when it has fewer, in ascending order.  Which of several elements with the greatest of these
keys are in the list is left open.
-/

namespace KLeast

variable {α κ : Type} [LinearOrder κ] {key : α → κ} {s : Set α} {l : List α}

/-- `l` lists `k` elements of `s` with the least keys. -/
structure IsKLeast (key : α → κ) (s : Set α) (k : ℕ) (l : List α) : Prop where
  nodup : l.Nodup
  mem : ∀ a ∈ l, a ∈ s
  ascending : l.Pairwise fun a b => key a ≤ key b
  length : l.length = min k s.ncard
  least : ∀ a ∈ l, ∀ b ∈ s, b ∉ l → key a ≤ key b

/-- A set that is listed has as many elements as the list. -/
theorem ncard_eq_length (hnodup : l.Nodup) (hmem : ∀ a, a ∈ l ↔ a ∈ s) : s.ncard = l.length := by
  classical
  have hs : s = ↑l.toFinset := by
    ext a
    rw [Finset.mem_coe, List.mem_toFinset, hmem]
  rw [hs, Set.ncard_coe_finset, List.toFinset_card_of_nodup hnodup]

/-- **The first `k` of a sorted list** of the elements of a set are the `k` least. -/
theorem isKLeast_take (hnodup : l.Nodup) (hmem : ∀ a, a ∈ l ↔ a ∈ s)
    (hsorted : l.Pairwise fun a b => key a ≤ key b) (k : ℕ) : IsKLeast key s k (l.take k) where
  nodup := hnodup.sublist (List.take_sublist k l)
  mem a ha := (hmem a).mp (List.mem_of_mem_take ha)
  ascending := hsorted.sublist (List.take_sublist k l)
  length := by rw [List.length_take, ncard_eq_length hnodup hmem]
  least a ha b hb hnot := by
    rw [← List.take_append_drop k l, List.pairwise_append] at hsorted
    have hb := (hmem b).mpr hb
    rw [← List.take_append_drop k l, List.mem_append] at hb
    exact hsorted.2.2 a ha b (hb.resolve_left hnot)

/-- **The `k` least under other names**, when the keys are the same. -/
theorem IsKLeast.image {β : Type} {key' : β → κ} {f : α → β} {k : ℕ} (h : IsKLeast key s k l)
    (hinj : Set.InjOn f s) (hkey : ∀ a ∈ s, key' (f a) = key a) :
    IsKLeast key' (f '' s) k (l.map f) where
  nodup := h.nodup.map_on fun a ha b hb heq => hinj (h.mem a ha) (h.mem b hb) heq
  mem b hb := by
    obtain ⟨a, ha, rfl⟩ := List.mem_map.mp hb
    exact Set.mem_image_of_mem f (h.mem a ha)
  ascending := by
    rw [List.pairwise_map]
    refine h.ascending.imp_of_mem fun {a b} ha hb hle => ?_
    rwa [hkey a (h.mem a ha), hkey b (h.mem b hb)]
  length := by rw [List.length_map, h.length, hinj.ncard_image]
  least b hb b' hb' hnot := by
    obtain ⟨a, ha, rfl⟩ := List.mem_map.mp hb
    obtain ⟨a', ha', rfl⟩ := hb'
    rw [hkey a (h.mem a ha), hkey a' ha']
    exact h.least a ha a' ha' fun hmem => hnot (List.mem_map_of_mem hmem)

end KLeast
