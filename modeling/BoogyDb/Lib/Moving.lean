import BoogyDb.Lib.Ownership

/-!
# Moving what is owned to another store

An owner all of whose pages can be read is there in every store that has the same pages in
use, however few other pages that store has (`Movable`).  `S` says which pages can be moved at
all: those that a copy gives back.
-/

namespace Ownership

open PageStore

variable {σ β : Type} [PageStore σ β] {S : β → Prop} {s s' : σ} {P : Set ℕ}

/-- The pages of `A` are read, and are pages that `S` holds of; where they are in use, `A` is. -/
class Movable (S : β → Prop) (A : Assertion σ) : Prop where
  pages : ∀ {s P}, A s P → ∀ p ∈ P, ∃ page, view s p = some page ∧ S page
  move : ∀ {s s' P}, A s P → Same s s' P → (∀ p ∈ P, p < bound s') → A s' P

/-- A store that has every page of `s` that `S` holds of. -/
def Copies (S : β → Prop) (s s' : σ) : Prop :=
  ∀ p page, view s p = some page → S page → view s' p = some page

/-- **What is owned is found in the copy**, if the copy can read only pages in use. -/
theorem Movable.copied {A : Assertion σ} [Movable S A] (h : A s P) (hcopy : Copies S s s')
    (hused : ∀ p page, view s' p = some page → p < bound s') : A s' P := by
  have hread : ∀ p ∈ P, ∀ page, view s p = some page → view s' p = some page := by
    intro p hp page hview
    obtain ⟨page', hpage, hS⟩ := Movable.pages (S := S) h p hp
    rw [hview] at hpage
    obtain rfl := Option.some.inj hpage
    exact hcopy p page hview hS
  refine Movable.move S h hread fun p hp => ?_
  obtain ⟨page, hpage, -⟩ := Movable.pages (S := S) h p hp
  exact hused p page (hread p hp page hpage)

instance : Movable S (emp : Assertion σ) where
  pages := by
    rintro s P rfl p hp
    exact absurd hp (Set.notMem_empty p)
  move h _ _ := h

instance {ι : Type} {A : ι → Assertion σ} [∀ i, Movable S (A i)] : Movable S (Whole A) where
  pages := by
    rintro s Q ⟨P, hP, rfl⟩ p hp
    obtain ⟨i, hi⟩ := Set.mem_iUnion.mp hp
    exact Movable.pages (hP.owns i) p hi
  move := by
    rintro s s' Q ⟨P, hP, rfl⟩ hsame hlt
    refine ⟨P, ⟨fun i => ?_, hP.disjoint⟩, rfl⟩
    apply Movable.move S (hP.owns i)
    · exact fun p hp => hsame p (Set.mem_iUnion_of_mem i hp)
    · exact fun p hp => hlt p (Set.mem_iUnion_of_mem i hp)

end Ownership
