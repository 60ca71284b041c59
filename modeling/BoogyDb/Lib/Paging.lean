import Mathlib.Data.List.Basic

/-!
# Paging

A scan returns a page of rows and, if there may be more, the token to go on from.
`PageWalk` threads the tokens from page to page, with a limit of its own for each page.

The scan runs over a list of items; `remaining` is the part of them behind a token.  If
each page is what some of the remaining items give, and its token names the last of them
(`PageOf`), then the walk ends and its pages are what all items give.  Looking at an item
may fail: the walk ends exactly when it does not (`Scans.walk_iff`).
-/

namespace Paging

variable {ε ι ρ τ lim : Type}

/-- The pages a walk returns from a token on; `limits` are the limits of its pages. -/
inductive PageWalk (scan : Option τ → lim → Except ε (List ρ × Option τ)) :
    (ℕ → lim) → Option τ → List (List ρ) → Prop
  | last {limits : ℕ → lim} {after : Option τ} {rows : List ρ}
      (h : scan after (limits 0) = .ok (rows, none)) : PageWalk scan limits after [rows]
  | more {limits : ℕ → lim} {after : Option τ} {rows : List ρ} {key : τ} {pages : List (List ρ)}
      (h : scan after (limits 0) = .ok (rows, some key))
      (rest : PageWalk scan (fun i => limits (i + 1)) (some key) pages) :
      PageWalk scan limits after (rows :: pages)

/-- The page that the `visited` items give, when the items of `rest` are left. -/
structure PageOf (out : ι → Option ρ) (token : ι → τ) (visited rest : List ι) (rows : List ρ)
    (next : Option τ) : Prop where
  rows_eq : rows = visited.filterMap out
  done : next = none → rest = []
  more : ∀ key, next = some key → ∃ x ∈ visited.getLast?, token x = key

/-- A scan over `items`; it looks at an item that is `Fine`, and fails on another. -/
structure Scans (scan : Option τ → lim → Except ε (List ρ × Option τ)) (items : List ι)
    (remaining : Option τ → List ι) (out : ι → Option ρ) (token : ι → τ) (Fine : ι → Prop)
    (Allowed : lim → Prop) : Prop where
  start : remaining none = items
  resume : ∀ visited x rest, items = visited ++ x :: rest → remaining (some (token x)) = rest
  page : ∀ after limit rows next, Allowed limit → scan after limit = .ok (rows, next) →
    ∃ visited rest, remaining after = visited ++ rest ∧ PageOf out token visited rest rows next ∧
      ∀ x ∈ visited, Fine x
  total : ∀ after limit, Allowed limit → (∀ x ∈ items, Fine x) →
    ∃ page, scan after limit = .ok page

section

variable {scan : Option τ → lim → Except ε (List ρ × Option τ)} {items : List ι}
  {remaining : Option τ → List ι} {out : ι → Option ρ} {token : ι → τ} {Fine : ι → Prop}
  {Allowed : lim → Prop} {limits : ℕ → lim} {after : Option τ} {pages : List (List ρ)}

/-- What holds of each page by itself. -/
theorem PageWalk.getElem? {P : lim → List ρ → Prop} (h : PageWalk scan limits after pages)
    (hpage : ∀ after i rows next, scan after (limits i) = .ok (rows, next) → P (limits i) rows) :
    ∀ i rows, pages[i]? = some rows → P (limits i) rows := by
  induction h with
  | last h =>
      intro i rows hi
      cases i with
      | zero =>
          cases hi
          exact hpage _ _ _ _ h
      | succ i => cases hi
  | more h rest ih =>
      intro i rows hi
      cases i with
      | zero =>
          cases hi
          exact hpage _ _ _ _ h
      | succ i => exact ih (fun after i => hpage after (i + 1)) i rows hi

/-- A page that stopped at a token: the items behind it are the ones left. -/
theorem Scans.remaining_next (h : Scans scan items remaining out token Fine Allowed)
    {seen visited rest : List ι} {rows : List ρ} {key : τ} (hseen : items = seen ++ remaining after)
    (hsplit : remaining after = visited ++ rest)
    (hpage : PageOf out token visited rest rows (some key)) :
    ∃ seen', items = seen' ++ remaining (some key) ∧ remaining (some key) = rest ∧ visited ≠ [] := by
  obtain ⟨x, hlast, rfl⟩ := hpage.more key rfl
  obtain ⟨init, rfl⟩ := List.getLast?_eq_some_iff.mp hlast
  have hitems : items = (seen ++ init) ++ x :: rest := by
    rw [hseen, hsplit]
    simp
  have hrest := h.resume _ x rest hitems
  refine ⟨seen ++ init ++ [x], ?_, hrest, by simp⟩
  rw [hrest, hitems]
  simp

/-- From a token on, the walk ends and gives what the remaining items give. -/
theorem Scans.exists_walk (h : Scans scan items remaining out token Fine Allowed)
    (hfine : ∀ x ∈ items, Fine x) (n : ℕ) :
    ∀ limits : ℕ → lim, (∀ i, Allowed (limits i)) → ∀ after seen, items = seen ++ remaining after →
      (remaining after).length ≤ n →
      ∃ pages, PageWalk scan limits after pages ∧ pages.flatten = (remaining after).filterMap out := by
  induction n with
  | zero =>
      intro limits hallowed after seen hseen hlen
      obtain ⟨⟨rows, next⟩, hscan⟩ := h.total after (limits 0) (hallowed 0) hfine
      obtain ⟨visited, rest, hsplit, hpage, -⟩ := h.page after _ rows next (hallowed 0) hscan
      have hnil := List.length_eq_zero_iff.mp (Nat.le_zero.mp hlen)
      rw [hnil] at hsplit
      obtain ⟨rfl, rfl⟩ := List.append_eq_nil_iff.mp hsplit.symm
      cases next with
      | none =>
          refine ⟨[rows], .last hscan, ?_⟩
          rw [hpage.rows_eq, hnil]
          rfl
      | some key =>
          obtain ⟨x, hlast, -⟩ := hpage.more key rfl
          cases hlast
  | succ n ih =>
      intro limits hallowed after seen hseen hlen
      obtain ⟨⟨rows, next⟩, hscan⟩ := h.total after (limits 0) (hallowed 0) hfine
      obtain ⟨visited, rest, hsplit, hpage, -⟩ := h.page after _ rows next (hallowed 0) hscan
      cases next with
      | none =>
          obtain rfl := hpage.done rfl
          refine ⟨[rows], .last hscan, ?_⟩
          rw [hpage.rows_eq, hsplit, List.append_nil]
          simp
      | some key =>
          obtain ⟨seen', hseen', hrest, hne⟩ := h.remaining_next hseen hsplit hpage
          have hpos := List.length_pos_iff.mpr hne
          have hsum : (remaining after).length = visited.length + rest.length := by
            rw [hsplit, List.length_append]
          obtain ⟨pages, hwalk, hrows⟩ := ih (fun i => limits (i + 1)) (fun i => hallowed (i + 1))
            (some key) seen' hseen' (by rw [hrest]; omega)
          refine ⟨rows :: pages, .more hscan hwalk, ?_⟩
          rw [List.flatten_cons, hrows, hpage.rows_eq, hrest, hsplit, List.filterMap_append]

/-- A walk that ended has looked at every item. -/
theorem Scans.fine_of_walk (h : Scans scan items remaining out token Fine Allowed)
    (hallowed : ∀ i, Allowed (limits i)) (hwalk : PageWalk scan limits after pages) {seen : List ι}
    (hseen : items = seen ++ remaining after) : ∀ x ∈ remaining after, Fine x := by
  induction hwalk generalizing seen with
  | last hscan =>
      obtain ⟨visited, rest, hsplit, hpage, hfine⟩ := h.page _ _ _ _ (hallowed 0) hscan
      obtain rfl := hpage.done rfl
      rwa [hsplit, List.append_nil]
  | more hscan rest ih =>
      obtain ⟨visited, left, hsplit, hpage, hfine⟩ := h.page _ _ _ _ (hallowed 0) hscan
      obtain ⟨seen', hseen', hrest, -⟩ := h.remaining_next hseen hsplit hpage
      have hleft := ih (fun i => hallowed (i + 1)) hseen'
      intro x hx
      rw [hsplit] at hx
      rcases List.mem_append.mp hx with hx | hx
      · exact hfine x hx
      · exact hleft x (hrest.symm ▸ hx)

/-- **The walk is complete for all limits exactly when every item can be looked at.** -/
theorem Scans.walk_iff (h : Scans scan items remaining out token Fine Allowed)
    (hsome : ∃ limit, Allowed limit) :
    (∀ limits : ℕ → lim, (∀ i, Allowed (limits i)) →
      ∃ pages, PageWalk scan limits none pages ∧ pages.flatten = items.filterMap out) ↔
        ∀ x ∈ items, Fine x := by
  have hstart : items = [] ++ remaining none := h.start.symm
  constructor
  · intro hwalks
    obtain ⟨limit, hlimit⟩ := hsome
    obtain ⟨pages, hwalk, -⟩ := hwalks (fun _ => limit) fun _ => hlimit
    have hfine := h.fine_of_walk (fun _ => hlimit) hwalk hstart
    rwa [h.start] at hfine
  · intro hfine limits hallowed
    obtain ⟨pages, hwalk, hrows⟩ := h.exists_walk hfine (remaining none).length limits hallowed none
      [] hstart (Nat.le_refl _)
    exact ⟨pages, hwalk, hrows.trans (by rw [h.start])⟩

end

end Paging
