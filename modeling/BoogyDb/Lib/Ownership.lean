import Mathlib.Data.Set.Lattice
import Mathlib.Order.CompletePartialOrder

/-!
# Who owns which pages

A store of numbered pages holds several structures at once, each on pages of its
own.  An `Assertion` says what is on a set of pages.  An operation on one
structure leaves its pages for new ones and other pages as they were (`Turns`),
and then every other structure stays what it was (`Separate.turns`).

Reading a page can fail, so what is said to stay is a page that could be read.
-/

namespace Ownership

/-- A store of numbered pages. -/
class PageStore (σ : Type) (β : outParam Type) where
  /-- The page under a number, if it can be read. -/
  view : σ → ℕ → Option β
  /-- The pages in use have smaller numbers. -/
  bound : σ → ℕ

open PageStore

variable {σ β : Type} [PageStore σ β]

/-- What is on a set of pages. -/
abbrev Assertion (σ : Type) := σ → Set ℕ → Prop

/-- The pages of `P` that could be read are the same in `s'`. -/
def Same (s s' : σ) (P : Set ℕ) : Prop :=
  ∀ p ∈ P, ∀ page, view s p = some page → view s' p = some page

/-- `A` depends on its pages alone, which are pages in use. -/
class Local (A : Assertion σ) : Prop where
  below : ∀ {s P}, A s P → ∀ p ∈ P, p < bound s
  stable : ∀ {s s' P}, A s P → Same s s' P → bound s ≤ bound s' → A s' P

/-- No pages at all. -/
def emp : Assertion σ := fun _ P => P = ∅

/-- From `s` to `s'` the owner of `P` became `A`: pages in use that it did not own
stay, and it owns no others. -/
structure Turns (A : Assertion σ) (s : σ) (P : Set ℕ) (s' : σ) : Prop where
  owns : ∃ P', A s' P' ∧ ∀ p ∈ P', p ∈ P ∨ bound s ≤ p
  same : Same s s' {p | p < bound s ∧ p ∉ P}
  bound_le : bound s ≤ bound s'

section

variable {A A' B : Assertion σ} {s s' s'' : σ} {P : Set ℕ}

theorem Turns.refl (h : A s P) : Turns A s P s :=
  ⟨⟨P, h, fun _ => .inl⟩, fun _ _ _ => id, le_rfl⟩

theorem Turns.mono (h : Turns A s P s') (hA : ∀ Q, A s' Q → A' s' Q) : Turns A' s P s' := by
  obtain ⟨⟨P', hP', hsub⟩, hsame, hle⟩ := h
  exact ⟨⟨P', hA P' hP', hsub⟩, hsame, hle⟩

/-- A second operation continues on the pages the first one left. -/
theorem Turns.trans (h : Turns A s P s')
    (h' : ∀ P', A s' P' → Turns B s' P' s'') : Turns B s P s'' := by
  obtain ⟨⟨P', hP', hsub⟩, hsame, hle⟩ := h
  obtain ⟨⟨P'', hP'', hsub'⟩, hsame', hle'⟩ := h' P' hP'
  refine ⟨⟨P'', hP'', fun p hp => ?_⟩, fun p hp page hview => ?_, hle.trans hle'⟩
  · rcases hsub' p hp with hold | hnew
    · exact hsub p hold
    · exact .inr (hle.trans hnew)
  · obtain ⟨hlt, hnot⟩ := hp
    refine hsame' p ⟨hlt.trans_le hle, fun hin => ?_⟩ page (hsame p ⟨hlt, hnot⟩ page hview)
    rcases hsub p hin with hold | hnew
    · exact hnot hold
    · exact absurd hlt (Nat.not_lt.mpr hnew)

/-- The pages after an operation, for the operations that follow it. -/
theorem Turns.next (h : Turns A s P s') :
    ∃ P', A s' P' ∧ ∀ B : Assertion σ, ∀ s'', Turns B s' P' s'' → Turns B s P s'' := by
  obtain ⟨⟨P', hP', hsub⟩, hsame, hle⟩ := h
  refine ⟨P', hP', fun B s'' hturn => ?_⟩
  have hfirst : Turns (fun _ Q => Q = P') s P s' := ⟨⟨P', rfl, hsub⟩, hsame, hle⟩
  refine hfirst.trans ?_
  rintro Q rfl
  exact hturn

instance : Local (emp : Assertion σ) where
  below := by
    rintro s P rfl p hp
    exact absurd hp (Set.notMem_empty p)
  stable h _ _ := h

end

/-! ## Owners under names -/

section

variable {ι : Type} {A : ι → Assertion σ} {B : Assertion σ} {s s' : σ} {P : ι → Set ℕ} {i : ι}

/-- Each owner has pages of its own. -/
structure Separate (A : ι → Assertion σ) (s : σ) (P : ι → Set ℕ) : Prop where
  owns : ∀ i, A i s (P i)
  disjoint : ∀ i j, i ≠ j → Disjoint (P i) (P j)

/-- **An operation of one owner** leaves the other owners what they have. -/
theorem Separate.turns [∀ i, Local (A i)] [DecidableEq ι] (h : Separate A s P)
    (hturn : Turns B s (P i) s') : ∃ P', Separate (Function.update A i B) s' P' ∧
      (∀ p ∈ P' i, p ∈ P i ∨ bound s ≤ p) ∧ ∀ j ≠ i, P' j = P j := by
  obtain ⟨⟨Q, hQ, hsub⟩, hsame, hle⟩ := hturn
  have hbelow : ∀ j, ∀ p ∈ P j, p < bound s := fun j => Local.below (h.owns j)
  have hother : ∀ j ≠ i, Disjoint Q (P j) := by
    intro j hj
    refine Set.disjoint_left.mpr fun p hq hp => ?_
    rcases hsub p hq with hold | hnew
    · exact Set.disjoint_left.mp (h.disjoint i j hj.symm) hold hp
    · exact absurd (hbelow j p hp) (Nat.not_lt.mpr hnew)
  refine ⟨Function.update P i Q, ⟨fun j => ?_, fun j k hjk => ?_⟩, ?_, fun j hj => ?_⟩
  · by_cases hj : j = i
    · subst hj
      rw [Function.update_self, Function.update_self]
      exact hQ
    · rw [Function.update_of_ne hj, Function.update_of_ne hj]
      refine Local.stable (h.owns j) (fun p hp page => hsame p ⟨hbelow j p hp, fun hin => ?_⟩ page)
        hle
      exact Set.disjoint_left.mp (h.disjoint j i hj) hp hin
  · by_cases hj : j = i
    · subst hj
      rw [Function.update_self, Function.update_of_ne hjk.symm]
      exact hother k hjk.symm
    · by_cases hk : k = i
      · subst hk
        rw [Function.update_self, Function.update_of_ne hj]
        exact (hother j hj).symm
      · rw [Function.update_of_ne hj, Function.update_of_ne hk]
        exact h.disjoint j k hjk
  · rw [Function.update_self]
    exact hsub
  · exact Function.update_of_ne hj _ _

/-- All owners together. -/
def Whole (A : ι → Assertion σ) : Assertion σ := fun s Q => ∃ P, Separate A s P ∧ Q = ⋃ i, P i

instance [∀ i, Local (A i)] : Local (Whole A) where
  below := by
    rintro s Q ⟨P, hP, rfl⟩ p hp
    obtain ⟨i, hi⟩ := Set.mem_iUnion.mp hp
    exact Local.below (hP.owns i) p hi
  stable := by
    rintro s s' Q ⟨P, hP, rfl⟩ hsame hle
    refine ⟨P, ⟨fun i => ?_, hP.disjoint⟩, rfl⟩
    exact Local.stable (hP.owns i) (fun p hp => hsame p (Set.mem_iUnion_of_mem i hp)) hle

/-- **One of the owners at work**: what it becomes, it is among the others. -/
theorem Whole.owner [∀ i, Local (A i)] [DecidableEq ι] {Q : Set ℕ} (h : Whole A s Q) (i : ι) :
    ∃ R, A i s R ∧ ∀ B : Assertion σ, ∀ s',
      Turns B s R s' → Turns (Whole (Function.update A i B)) s Q s' := by
  obtain ⟨P, hP, rfl⟩ := h
  refine ⟨P i, hP.owns i, fun B s' hturn => ?_⟩
  obtain ⟨P', hP', hthere, helse⟩ := hP.turns hturn
  refine ⟨⟨⋃ j, P' j, ⟨P', hP', rfl⟩, fun p hp => ?_⟩, fun p hp => ?_, hturn.bound_le⟩
  · obtain ⟨j, hj⟩ := Set.mem_iUnion.mp hp
    by_cases hji : j = i
    · subst hji
      exact (hthere p hj).imp_left fun hin => Set.mem_iUnion_of_mem j hin
    · rw [helse j hji] at hj
      exact .inl (Set.mem_iUnion_of_mem j hj)
  · obtain ⟨hlt, hnot⟩ := hp
    exact hturn.same p ⟨hlt, fun hin => hnot (Set.mem_iUnion_of_mem i hin)⟩

/-- Some of the owners, under other names. -/
theorem Whole.rename {κ : Type} {f : κ → ι} {Q : Set ℕ} (h : Whole A s Q)
    (hf : Function.Injective f) : Turns (Whole fun k => A (f k)) s Q s := by
  obtain ⟨P, hP, rfl⟩ := h
  refine ⟨⟨⋃ k, P (f k), ⟨fun k => P (f k), ⟨fun k => hP.owns (f k), fun j k hjk => ?_⟩, rfl⟩,
    fun p hp => ?_⟩, fun _ _ _ => id, le_rfl⟩
  · exact hP.disjoint _ _ (hf.ne hjk)
  · obtain ⟨k, hk⟩ := Set.mem_iUnion.mp hp
    exact .inl (Set.mem_iUnion_of_mem (f k) hk)

end

end Ownership
