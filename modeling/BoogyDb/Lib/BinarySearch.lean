import Mathlib.Order.Defs.LinearOrder
import Mathlib.Tactic.Linarith

/-!
# Binary search over a fallible probe

`bsearch probe lo hi` halves `[lo, hi)` on the answers of `probe` and stops at
the first equal answer.  It returns the position and whether the probe was equal
there; a failing probe fails the search.

`bsearch_spec` is for probes that compare strictly increasing keys with a target
on the searched window: the search succeeds, and its position splits the window
at the target.  Where the probes fail for some entries, the search depends on those it looks
at (`visits`).
-/

namespace BinarySearch

/-- Search `[lo, hi)`, comparing with `probe`: `.lt` means the probed entry is
below the target. -/
def bsearch {ε : Type} (probe : ℕ → Except ε Ordering) (lo hi : ℕ) : Except ε (ℕ × Bool) :=
  if lo < hi then
    let mid := lo + (hi - lo) / 2
    match probe mid with
    | .error e => .error e
    | .ok .lt => bsearch probe (mid + 1) hi
    | .ok .gt => bsearch probe lo mid
    | .ok .eq => .ok (mid, true)
  else .ok (lo, false)
termination_by hi - lo

/-- Whatever the probe answers, the position is in the window, and strictly so on a hit. -/
theorem bsearch_bounds {ε : Type} {probe : ℕ → Except ε Ordering} {lo hi : ℕ} {res : ℕ × Bool}
    (hle : lo ≤ hi) (h : bsearch probe lo hi = .ok res) :
    lo ≤ res.1 ∧ res.1 ≤ hi ∧ (res.2 = true → res.1 < hi) := by
  fun_induction bsearch probe lo hi with
  | case1 lo hi hlt mid e hprobe => cases h
  | case2 lo hi hlt mid hprobe ih =>
      obtain ⟨hlo, hhi, hfound⟩ := ih (by omega) h
      exact ⟨by omega, hhi, hfound⟩
  | case3 lo hi hlt mid hprobe ih =>
      obtain ⟨hlo, hhi, hfound⟩ := ih (by omega) h
      exact ⟨hlo, by omega, fun hres => by have := hfound hres; omega⟩
  | case4 lo hi hlt mid hprobe =>
      cases h
      exact ⟨by omega, by omega, fun _ => by omega⟩
  | case5 lo hi hlt =>
      cases h
      exact ⟨le_rfl, hle, fun hres => by cases hres⟩

/-- A failing search fails with a failing probe. -/
theorem bsearch_error {ε : Type} {probe : ℕ → Except ε Ordering} {lo hi : ℕ} {e : ε}
    (h : bsearch probe lo hi = .error e) : ∃ i, lo ≤ i ∧ i < hi ∧ probe i = .error e := by
  fun_induction bsearch probe lo hi with
  | case1 lo hi hlt mid e' hprobe =>
      cases h
      exact ⟨mid, by omega, by omega, hprobe⟩
  | case2 lo hi hlt mid hprobe ih =>
      obtain ⟨i, hlo, hhi, hi⟩ := ih h
      exact ⟨i, by omega, hhi, hi⟩
  | case3 lo hi hlt mid hprobe ih =>
      obtain ⟨i, hlo, hhi, hi⟩ := ih h
      exact ⟨i, hlo, by omega, hi⟩
  | case4 lo hi hlt mid hprobe => cases h
  | case5 lo hi hlt => cases h

/-- A probe that answers more often leads to the same answer. -/
theorem bsearch_mono {ε : Type} {probe probe' : ℕ → Except ε Ordering} {lo hi : ℕ} {res : ℕ × Bool}
    (hprobe : ∀ i ord, probe i = .ok ord → probe' i = .ok ord)
    (h : bsearch probe lo hi = .ok res) : bsearch probe' lo hi = .ok res := by
  fun_induction bsearch probe lo hi with
  | case1 lo hi hlt mid e hmid => cases h
  | case2 lo hi hlt mid hmid ih =>
      rw [bsearch, if_pos hlt]
      dsimp only
      rw [hprobe _ _ hmid]
      exact ih h
  | case3 lo hi hlt mid hmid ih =>
      rw [bsearch, if_pos hlt]
      dsimp only
      rw [hprobe _ _ hmid]
      exact ih h
  | case4 lo hi hlt mid hmid =>
      rw [bsearch, if_pos hlt]
      dsimp only
      rw [hprobe _ _ hmid]
      exact h
  | case5 lo hi hlt =>
      rw [bsearch, if_neg hlt]
      exact h

/-! ## What a search looks at -/

/-- The entries that a search looks at when the probe answers `cmp`. -/
def visits (cmp : ℕ → Ordering) (lo hi : ℕ) : List ℕ :=
  if lo < hi then
    let mid := lo + (hi - lo) / 2
    match cmp mid with
    | .lt => mid :: visits cmp (mid + 1) hi
    | .gt => mid :: visits cmp lo mid
    | .eq => [mid]
  else []
termination_by hi - lo

/-- The entry that it finds. -/
def hit (cmp : ℕ → Ordering) (lo hi : ℕ) : Option ℕ :=
  (visits cmp lo hi).find? fun i => cmp i == .eq

theorem lt_of_mem_visits {cmp : ℕ → Ordering} {lo hi i : ℕ} (h : i ∈ visits cmp lo hi) :
    lo ≤ i ∧ i < hi := by
  fun_induction visits cmp lo hi with
  | case1 lo hi hlt mid hmid ih =>
      rcases List.mem_cons.mp h with rfl | h
      · omega
      · have := ih h
        omega
  | case2 lo hi hlt mid hmid ih =>
      rcases List.mem_cons.mp h with rfl | h
      · omega
      · have := ih h
        omega
  | case3 lo hi hlt mid hmid =>
      obtain rfl := List.mem_singleton.mp h
      omega
  | case4 lo hi hlt => cases h

theorem lt_of_hit {cmp : ℕ → Ordering} {lo hi i : ℕ} (h : hit cmp lo hi = some i) : i < hi :=
  (lt_of_mem_visits (List.mem_of_find?_eq_some h)).2

/-- A probe that answers for all entries the search looks at. -/
theorem bsearch_visits {ε : Type} {probe : ℕ → Except ε Ordering} {cmp : ℕ → Ordering} {lo hi : ℕ}
    (h : ∀ i ∈ visits cmp lo hi, probe i = .ok (cmp i)) :
    ∃ res, bsearch probe lo hi = .ok res ∧ hit cmp lo hi = if res.2 then some res.1 else none := by
  unfold hit
  fun_induction visits cmp lo hi with
  | case1 lo hi hlt mid hmid ih =>
      rw [List.forall_mem_cons] at h
      obtain ⟨res, hres, hhit⟩ := ih h.2
      refine ⟨res, ?_, ?_⟩
      · rw [bsearch, if_pos hlt]
        dsimp only
        rw [h.1, hmid]
        exact hres
      · rw [List.find?_cons_of_neg (by rw [hmid]; decide), hhit]
  | case2 lo hi hlt mid hmid ih =>
      rw [List.forall_mem_cons] at h
      obtain ⟨res, hres, hhit⟩ := ih h.2
      refine ⟨res, ?_, ?_⟩
      · rw [bsearch, if_pos hlt]
        dsimp only
        rw [h.1, hmid]
        exact hres
      · rw [List.find?_cons_of_neg (by rw [hmid]; decide), hhit]
  | case3 lo hi hlt mid hmid =>
      refine ⟨(mid, true), ?_, ?_⟩
      · rw [bsearch, if_pos hlt]
        dsimp only
        rw [h mid (List.mem_singleton_self mid), hmid]
      · rw [List.find?_cons_of_pos (by rw [hmid]; decide)]
        rfl
  | case4 lo hi hlt =>
      refine ⟨(lo, false), ?_, rfl⟩
      rw [bsearch, if_neg hlt]

/-- What a search result says about keys and a target on `[lo, hi)`. -/
structure Splits {κ : Type} [LinearOrder κ] (key : ℕ → κ) (target : κ) (lo hi : ℕ)
    (res : ℕ × Bool) : Prop where
  lo_le : lo ≤ res.1
  le_hi : res.1 ≤ hi
  below : ∀ i, lo ≤ i → i < res.1 → key i < target
  above : ∀ i, res.1 ≤ i → i < hi → if res.2 then target ≤ key i else target < key i
  hit : res.2 = true → res.1 < hi ∧ key res.1 = target

section

variable {ε κ : Type} [LinearOrder κ] {key : ℕ → κ} {target : κ} {probe : ℕ → Except ε Ordering}

/-- On strictly increasing keys the search succeeds and splits the window. -/
theorem bsearch_spec (lo hi : ℕ) (hle : lo ≤ hi)
    (hprobe : ∀ i, lo ≤ i → i < hi → probe i = .ok (compare (key i) target))
    (hmono : ∀ i j, lo ≤ i → i < j → j < hi → key i < key j) :
    ∃ res, bsearch probe lo hi = .ok res ∧ Splits key target lo hi res := by
  induction hn : hi - lo using Nat.strong_induction_on generalizing lo hi with
  | _ n ih =>
  rw [bsearch]
  by_cases hlt : lo < hi
  · rw [if_pos hlt]
    set mid := lo + (hi - lo) / 2 with hmid
    have hlow : lo ≤ mid := Nat.le_add_right _ _
    have hhigh : mid < hi := by omega
    dsimp only
    rw [hprobe mid hlow hhigh]
    rcases lt_trichotomy (key mid) target with hkey | hkey | hkey
    · -- the probed key is below: everything up to it is
      rw [compare_lt_iff_lt.mpr hkey]
      obtain ⟨res, hres, hsplit⟩ := ih (hi - (mid + 1)) (by omega) (mid + 1) hi (by omega)
        (fun i hi₁ hi₂ => hprobe i (by omega) hi₂)
        (fun i j hi₁ hij hj => hmono i j (by omega) hij hj) rfl
      refine ⟨res, hres, ⟨by have := hsplit.lo_le; omega, hsplit.le_hi, ?_, hsplit.above,
        hsplit.hit⟩⟩
      intro i hi₁ hi₂
      rcases Nat.lt_trichotomy i mid with him | him | him
      · exact (hmono i mid hi₁ him hhigh).trans hkey
      · rw [him]; exact hkey
      · exact hsplit.below i him hi₂
    · rw [compare_eq_iff_eq.mpr hkey]
      refine ⟨(mid, true), rfl, ⟨hlow, hhigh.le, ?_, ?_, fun _ => ⟨hhigh, hkey⟩⟩⟩
      · intro i hi₁ hi₂
        rw [← hkey]
        exact hmono i mid hi₁ hi₂ hhigh
      · intro i hi₁ hi₂
        rcases Nat.lt_or_eq_of_le hi₁ with him | him
        · exact hkey ▸ (hmono mid i hlow him hi₂).le
        · rw [← him]; exact hkey.ge
    · -- the probed key is above: everything from it on is
      rw [compare_gt_iff_gt.mpr hkey]
      obtain ⟨res, hres, hsplit⟩ := ih (mid - lo) (by omega) lo mid hlow
        (fun i hi₁ hi₂ => hprobe i hi₁ (by omega))
        (fun i j hi₁ hij hj => hmono i j hi₁ hij (by omega)) rfl
      refine ⟨res, hres, ⟨hsplit.lo_le, by have := hsplit.le_hi; omega, hsplit.below, ?_, ?_⟩⟩
      · intro i hi₁ hi₂
        rcases Nat.lt_or_ge i mid with him | him
        · exact hsplit.above i hi₁ him
        · have hgt : target < key i := by
            rcases Nat.lt_or_eq_of_le him with him | him
            · exact hkey.trans (hmono mid i hlow him hi₂)
            · rw [← him]; exact hkey
          split
          · exact hgt.le
          · exact hgt
      · intro hfound
        have := hsplit.hit hfound
        exact ⟨by omega, this.2⟩
  · rw [if_neg hlt]
    exact ⟨(lo, false), rfl, ⟨le_rfl, hle, fun i _ _ => by omega, fun i _ _ => by omega,
      fun h => by simp at h⟩⟩

/-- A split that missed has the target nowhere in the window. -/
theorem Splits.ne_of_miss {lo hi : ℕ} {res : ℕ × Bool} (h : Splits key target lo hi res)
    (hmiss : res.2 = false) {i : ℕ} (hlo : lo ≤ i) (hhi : i < hi) : key i ≠ target := by
  rcases Nat.lt_or_ge i res.1 with hlt | hge
  · exact (h.below i hlo hlt).ne
  · have habove := h.above i hge hhi
    rw [hmiss, if_neg (by simp)] at habove
    exact habove.ne'

end

end BinarySearch
