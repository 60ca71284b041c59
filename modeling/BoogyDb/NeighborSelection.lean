import BoogyDb.SearchExact

/-!
# Which neighbors are selected

The candidates are taken in the order of their distances.  The first pass takes a candidate
unless it is closer to one that was taken before than to the target (`selectDiverse`); the second
pass takes what is closest of the others until `m` are selected (`fillClosest`).

Each pass appends to the selection a sublist of the candidates.  What a pass leaves out is
either dominated, or it comes behind all that the pass has taken (`Diversifies`, `Fills`): so
when something is left out, nothing that the second pass takes is farther
(`Hnsw.selectNeighbors_selects`).
-/

namespace BoogyDb

namespace Hnsw

variable {ε : Type} {dist : List UInt32 → List UInt32 → UInt32} {storage : VectorStorage ε}
  {vec : ℕ → List UInt32} {m : ℕ} {candidates sorted : List (ℕ × UInt32)}
  {selected added : List ℕ}

/-! ## The two passes -/

/-- The candidate is closer to one of these than to the target. -/
def Dominated (dist : List UInt32 → List UInt32 → UInt32) (vec : ℕ → List UInt32)
    (selected : List ℕ) (c : ℕ × UInt32) : Prop :=
  ∃ s ∈ selected, Binary32.lt (dist (vec c.1) (vec s)) c.2 = true

/-- What the first pass adds to a selection. -/
structure Diversifies (dist : List UInt32 → List UInt32 → UInt32) (vec : ℕ → List UInt32) (m : ℕ)
    (sorted : List (ℕ × UInt32)) (selected added : List ℕ) : Prop where
  sublist : added.Sublist (sorted.map Prod.fst)
  length_le : selected.length ≤ m → selected.length + added.length ≤ m
  left : ∀ before c after, sorted = before ++ c :: after → c.1 ∉ added →
    added.Sublist (before.map Prod.fst) ∨
      ∃ front, front.Sublist (before.map Prod.fst) ∧ front <+: added ∧
        Dominated dist vec (selected ++ front) c

/-- What the second pass adds to a selection. -/
structure Fills (m : ℕ) (sorted : List (ℕ × UInt32)) (selected added : List ℕ) : Prop where
  sublist : added.Sublist (sorted.map Prod.fst)
  length_le : selected.length ≤ m → selected.length + added.length ≤ m
  new : ∀ x ∈ added, x ∉ selected
  left : ∀ before c after, sorted = before ++ c :: after → c.1 ∉ selected → c.1 ∉ added →
    m ≤ selected.length + added.length ∧ added.Sublist (before.map Prod.fst)

theorem anyM_ok {f : ℕ → Except ε Bool} {p : ℕ → Bool} {ids : List ℕ}
    (h : ∀ x ∈ ids, f x = .ok (p x)) : ids.anyM f = .ok (ids.any p) := by
  induction ids with
  | nil => rfl
  | cons x ids ih =>
      rw [List.forall_mem_cons] at h
      unfold List.anyM
      rw [h.1, Except.ok_bind, List.any_cons]
      cases p x with
      | true => rfl
      | false => exact ih h.2

/-- A list that starts with an element, cut at another place. -/
theorem cons_eq_append_cons {α : Type} {a b : α} {l before after : List α}
    (h : a :: l = before ++ b :: after) :
    before = [] ∧ a = b ∧ l = after ∨ ∃ rest, before = a :: rest ∧ l = rest ++ b :: after := by
  cases before with
  | nil =>
      obtain ⟨rfl, rfl⟩ := List.cons.inj h
      exact Or.inl ⟨rfl, rfl, rfl⟩
  | cons a' rest =>
      obtain ⟨rfl, rfl⟩ := List.cons.inj h
      exact Or.inr ⟨rest, rfl, rfl⟩

/-- **The first pass leaves out what is dominated**, and what comes behind its selection. -/
theorem selectDiverse_diversifies
    (hselected : ∀ x ∈ selected, storage.vector x = .ok (vec x))
    (hsorted : ∀ c ∈ sorted, storage.vector c.1 = .ok (vec c.1)) :
    ∃ added, selectDiverse dist storage m sorted selected = .ok (selected ++ added) ∧
      Diversifies dist vec m sorted selected added := by
  induction sorted generalizing selected with
  | nil =>
      refine ⟨[], by rw [List.append_nil]; rfl, .refl _, id, fun before c after h => ?_⟩
      exact absurd h.symm (by simp)
  | cons c sorted ih =>
      obtain ⟨candId, candDist⟩ := c
      rw [List.forall_mem_cons] at hsorted
      obtain ⟨hcand, hsorted⟩ := hsorted
      unfold selectDiverse
      by_cases hfull : m ≤ selected.length
      · rw [if_pos hfull]
        exact ⟨[], by rw [List.append_nil]; rfl, List.nil_sublist _, id,
          fun before c after _ _ => Or.inl (List.nil_sublist _)⟩
      rw [if_neg hfull, hcand, Except.ok_bind]
      have hdominated : (selected.anyM fun selId => do
          let selVec ← storage.vector selId
          (pure (Binary32.lt (dist (vec candId) selVec) candDist) : Except ε Bool)) =
            .ok (selected.any fun s => Binary32.lt (dist (vec candId) (vec s)) candDist) :=
        anyM_ok fun x hx => by
          rw [hselected x hx]
          rfl
      rw [hdominated, Except.ok_bind]
      cases hany : selected.any fun s => Binary32.lt (dist (vec candId) (vec s)) candDist with
      -- dominated by one of those selected so far: the candidate is left out
      | true =>
          obtain ⟨added, hrun, hadded⟩ := ih hselected hsorted
          refine ⟨added, hrun, hadded.sublist.trans (List.sublist_cons_self _ _),
            hadded.length_le, fun before c after hsplit hleft => ?_⟩
          rcases cons_eq_append_cons hsplit with ⟨rfl, rfl, rfl⟩ | ⟨rest, rfl, hrest⟩
          · refine Or.inr ⟨[], .refl _, List.nil_prefix, ?_⟩
            rw [List.append_nil]
            exact List.any_eq_true.mp hany
          · have hmap : (rest.map Prod.fst).Sublist (((candId, candDist) :: rest).map Prod.fst) :=
              List.sublist_cons_self _ _
            rcases hadded.left rest c after hrest hleft with hbehind | ⟨front, hfront, hrest⟩
            · exact Or.inl (hbehind.trans hmap)
            · exact Or.inr ⟨front, hfront.trans hmap, hrest⟩
      -- the candidate is taken, and stands in front of all that are added later
      | false =>
          have hnext : ∀ x ∈ selected ++ [candId], storage.vector x = .ok (vec x) := by
            intro x hx
            rcases List.mem_append.mp hx with hx | hx
            · exact hselected x hx
            · exact List.mem_singleton.mp hx ▸ hcand
          obtain ⟨added, hrun, hadded⟩ := ih hnext hsorted
          rw [List.append_assoc, List.singleton_append] at hrun
          refine ⟨candId :: added, hrun, hadded.sublist.cons_cons candId, fun hle => ?_,
            fun before c after hsplit hleft => ?_⟩
          · have hlen := hadded.length_le
            rw [List.length_append, List.length_singleton] at hlen
            rw [List.length_cons]
            omega
          · rcases cons_eq_append_cons hsplit with ⟨rfl, rfl, rfl⟩ | ⟨rest, rfl, hrest⟩
            · exact absurd List.mem_cons_self hleft
            · rw [List.mem_cons, not_or] at hleft
              rcases hadded.left rest c after hrest hleft.2 with
                hbehind | ⟨front, hfront, hprefix, hdom⟩
              · exact Or.inl (hbehind.cons_cons candId)
              · refine Or.inr ⟨candId :: front, hfront.cons_cons candId,
                  (List.cons_prefix_cons).mpr ⟨rfl, hprefix⟩, ?_⟩
                rwa [List.append_assoc, List.singleton_append] at hdom

/-- **The second pass takes the closest**: what it leaves out comes behind what it takes. -/
theorem fillClosest_fills (m : ℕ) (sorted : List (ℕ × UInt32)) (selected : List ℕ)
    (hids : (sorted.map Prod.fst).Nodup) :
    ∃ added, fillClosest m sorted selected = selected ++ added ∧ Fills m sorted selected added := by
  induction sorted generalizing selected with
  | nil =>
      refine ⟨[], by rw [List.append_nil]; rfl, .refl _, id, nofun, fun before c after h => ?_⟩
      exact absurd h.symm (by simp)
  | cons c sorted ih =>
      obtain ⟨candId, candDist⟩ := c
      rw [List.map_cons, List.nodup_cons] at hids
      obtain ⟨hnew, hids⟩ := hids
      unfold fillClosest
      by_cases hfull : m ≤ selected.length
      · rw [if_pos hfull]
        exact ⟨[], (List.append_nil _).symm, List.nil_sublist _, id, nofun,
          fun before c after _ _ _ => ⟨hfull, List.nil_sublist _⟩⟩
      rw [if_neg hfull]
      by_cases hmem : candId ∈ selected
      · rw [if_pos hmem]
        obtain ⟨added, hrun, hadded⟩ := ih selected hids
        refine ⟨added, hrun, hadded.sublist.trans (List.sublist_cons_self _ _), hadded.length_le,
          hadded.new, fun before c after hsplit hc hleft => ?_⟩
        rcases cons_eq_append_cons hsplit with ⟨rfl, rfl, rfl⟩ | ⟨rest, rfl, hrest⟩
        · exact absurd hmem hc
        · obtain ⟨hlen, hbehind⟩ := hadded.left rest c after hrest hc hleft
          exact ⟨hlen, hbehind.trans (List.sublist_cons_self _ _)⟩
      · rw [if_neg hmem]
        obtain ⟨added, hrun, hadded⟩ := ih (selected ++ [candId]) hids
        rw [List.append_assoc, List.singleton_append] at hrun
        have hlen := hadded.length_le
        rw [List.length_append, List.length_singleton] at hlen
        refine ⟨candId :: added, hrun, hadded.sublist.cons_cons candId, fun _ => ?_,
          fun x hx => ?_, fun before c after hsplit hc hleft => ?_⟩
        · rw [List.length_cons]
          omega
        · rcases List.mem_cons.mp hx with rfl | hx
          · exact hmem
          · exact fun hsel => hadded.new x hx (List.mem_append_left _ hsel)
        · rcases cons_eq_append_cons hsplit with ⟨rfl, rfl, rfl⟩ | ⟨rest, rfl, hrest⟩
          · exact absurd List.mem_cons_self hleft
          · rw [List.mem_cons, not_or] at hleft
            have hc' : c.1 ∉ selected ++ [candId] := by
              rw [List.mem_append, List.mem_singleton, not_or]
              exact ⟨hc, hleft.1⟩
            obtain ⟨hle, hbehind⟩ := hadded.left rest c after hrest hc' hleft.2
            rw [List.length_append, List.length_singleton] at hle
            rw [List.length_cons]
            exact ⟨by omega, hbehind.cons_cons candId⟩

/-! ## The selection -/

/-- What a selection of `m` candidates looks like.  A candidate that is left out although one that
is farther is selected is dominated by the part of the selection that is no farther than it. -/
structure Selection (dist : List UInt32 → List UInt32 → UInt32) (vec : ℕ → List UInt32) (m : ℕ)
    (candidates : List (ℕ × UInt32)) (selected : List ℕ) : Prop where
  length_eq : selected.length = min m candidates.length
  nodup : selected.Nodup
  mem : ∀ x ∈ selected, x ∈ candidates.map Prod.fst
  nearest : 1 ≤ m → candidates ≠ [] → ∃ c ∈ candidates, selected.head? = some c.1 ∧
    ∀ c' ∈ candidates, Binary32.lt c'.2 c.2 = false
  dominated : ∀ c ∈ candidates, c.1 ∉ selected → ∀ c' ∈ candidates, c'.1 ∈ selected →
    Binary32.lt c.2 c'.2 = true → ∃ earlier later, selected = earlier ++ later ∧ c'.1 ∈ later ∧
      (∀ d ∈ candidates, d.1 ∈ earlier → Binary32.lt c.2 d.2 = false) ∧
      Dominated dist vec earlier c

/-- The passes over a sorted list that is not empty begin with its head. -/
theorem Diversifies.head {c : ℕ × UInt32} {rest : List (ℕ × UInt32)}
    (h : Diversifies dist vec m (c :: rest) [] added) (hfill : Fills m (c :: rest) added selected)
    (hids : ((c :: rest).map Prod.fst).Nodup) (hm : 1 ≤ m) :
    (added ++ selected).head? = some c.1 := by
  rw [List.map_cons] at hids
  have hhead : ∀ {l : List ℕ}, l.Sublist ((c :: rest).map Prod.fst) → c.1 ∈ l →
      l.head? = some c.1 := by
    intro l hsub hmem
    cases l with
    | nil => cases hmem
    | cons x l =>
        rw [List.map_cons] at hsub
        rcases List.mem_cons.mp hmem with heq | hmem
        · rw [List.head?_cons, heq]
        · -- the head of the candidates is not behind another one
          have hnot := (List.nodup_cons.mp hids).1
          cases hsub with
          | cons _ hsub => exact absurd (hsub.subset (List.mem_cons_of_mem _ hmem)) hnot
          | cons_cons _ _ => rfl
  by_cases hfirst : c.1 ∈ added
  · rw [List.head?_append, hhead h.sublist hfirst]
    rfl
  -- the first candidate is not dominated, so the first pass has taken nothing
  have hnone : added = [] := by
    rcases h.left [] c rest rfl hfirst with hbehind | ⟨front, hfront, -, s, hs, -⟩
    · exact List.sublist_nil.mp hbehind
    · rw [List.sublist_nil.mp hfront] at hs
      cases hs
  subst hnone
  rw [List.nil_append]
  apply hhead hfill.sublist
  by_contra hleft
  obtain ⟨hlen, hbehind⟩ := hfill.left [] c rest rfl hfirst hleft
  rw [List.sublist_nil.mp hbehind, List.length_nil] at hlen
  omega

/-- What the passes select, one after the other: no candidate twice. -/
theorem selectNeighbors_passes (m : ℕ) (hids : (candidates.map Prod.fst).Nodup)
    (hreads : ∀ c ∈ candidates, storage.vector c.1 = .ok (vec c.1)) :
    ∃ chosen filled, selectNeighbors dist storage candidates m = .ok (chosen ++ filled) ∧
      Diversifies dist vec m (sortByDistance candidates) [] chosen ∧
      Fills m (sortByDistance candidates) chosen filled ∧ (chosen ++ filled).Nodup := by
  have hperm := sortByDistance_perm candidates
  set sorted := sortByDistance candidates with hsortedDef
  have hsortedIds : (sorted.map Prod.fst).Nodup := (hperm.map Prod.fst).nodup_iff.mpr hids
  obtain ⟨chosen, hrun, hchosen⟩ := @selectDiverse_diversifies _ dist storage vec m sorted []
    nofun fun c hc => hreads c (hperm.mem_iff.mp hc)
  rw [List.nil_append] at hrun
  obtain ⟨filled, hfill, hfilled⟩ := fillClosest_fills m sorted chosen hsortedIds
  refine ⟨chosen, filled, ?_, hchosen, hfilled, ?_⟩
  · unfold selectNeighbors
    dsimp only
    rw [← hsortedDef, hrun]
    exact congrArg Except.ok hfill
  · refine List.nodup_append.mpr ⟨hsortedIds.sublist hchosen.sublist,
      hsortedIds.sublist hfilled.sublist, fun a ha b hb heq => ?_⟩
    exact hfilled.new b hb (heq ▸ ha)

/-- **The selection of neighbors**: as many as there is room for, a closest one first, and what is
passed over for one that is farther is dominated. -/
theorem selectNeighbors_selects (hids : (candidates.map Prod.fst).Nodup)
    (htotal : ∀ c ∈ candidates, Binary32.isNaN c.2 = false)
    (hreads : ∀ c ∈ candidates, storage.vector c.1 = .ok (vec c.1)) :
    ∃ selected, selectNeighbors dist storage candidates m = .ok selected ∧
      Selection dist vec m candidates selected := by
  have hperm := sortByDistance_perm candidates
  obtain ⟨chosen, filled, hrun, hchosen, hfilled, hnodup⟩ :=
    @selectNeighbors_passes _ dist storage vec candidates m hids hreads
  set sorted := sortByDistance candidates with hsortedDef
  have hascending : sorted.Pairwise fun a b => Binary32.orderKey a.2 ≤ Binary32.orderKey b.2 :=
    sortByDistance_ascending htotal
  have hsortedIds : (sorted.map Prod.fst).Nodup := (hperm.map Prod.fst).nodup_iff.mpr hids
  have hlen : chosen.length + filled.length ≤ m := by
    have hle := hchosen.length_le (Nat.zero_le m)
    rw [List.length_nil, Nat.zero_add] at hle
    exact hfilled.length_le hle
  have hmem : ∀ x ∈ chosen ++ filled, x ∈ sorted.map Prod.fst := by
    intro x hx
    rcases List.mem_append.mp hx with hx | hx
    · exact hchosen.sublist.subset hx
    · exact hfilled.sublist.subset hx
  have hcount : sorted.length = candidates.length := hperm.length_eq
  refine ⟨chosen ++ filled, hrun, ?_, hnodup,
    fun x hx => (hperm.map Prod.fst).mem_iff.mp (hmem x hx), fun hm hne => ?_,
    fun c hc hleft c' hc' hin hlt => ?_⟩
  · have hle := (hnodup.subperm hmem).length_le
    rw [List.length_map, hcount, List.length_append] at hle
    rw [List.length_append]
    by_cases hall : ∀ x ∈ sorted.map Prod.fst, x ∈ chosen ++ filled
    · have hge := (hsortedIds.subperm hall).length_le
      rw [List.length_map, hcount, List.length_append] at hge
      omega
    · -- a candidate is left out only when the selection is full
      push Not at hall
      obtain ⟨x, hx, hleft⟩ := hall
      obtain ⟨c, hc, rfl⟩ := List.mem_map.mp hx
      obtain ⟨before, after, hsplit⟩ := List.append_of_mem hc
      rw [List.mem_append, not_or] at hleft
      obtain ⟨hfull, -⟩ := hfilled.left before c after hsplit hleft.1 hleft.2
      omega
  -- the first candidate of the sorted list is closest, and it is always taken
  · obtain ⟨c, rest, hsplit⟩ : ∃ c rest, sorted = c :: rest := by
      refine List.exists_cons_of_ne_nil fun hnil => hne ?_
      rw [hnil] at hperm
      exact hperm.nil_eq.symm
    rw [hsplit] at hchosen hfilled hsortedIds hascending
    refine ⟨c, hperm.mem_iff.mp (hsplit ▸ List.mem_cons_self),
      hchosen.head hfilled hsortedIds hm, fun c' hc' => ?_⟩
    have hc' := hperm.mem_iff.mpr hc'
    rw [hsplit] at hc'
    rw [Bool.eq_false_iff, Ne, Binary32.lt_iff]
    rintro ⟨-, -, hlt⟩
    rcases List.mem_cons.mp hc' with rfl | hc'
    · exact lt_irrefl _ hlt
    · exact absurd hlt (not_lt.mpr ((List.pairwise_cons.mp hascending).1 c' hc'))
  -- a candidate left out was dominated when its turn came: the chosen one that is nearer to it
  -- stands in front of everything farther
  · have hsame : ∀ {d d' : ℕ × UInt32}, d ∈ sorted → d' ∈ sorted → d.1 = d'.1 → d = d' :=
      fun hd hd' heq => List.inj_on_of_nodup_map hsortedIds hd hd' heq
    obtain ⟨before, after, hsplit⟩ := List.append_of_mem (hperm.mem_iff.mpr hc)
    have hnear : ∀ d ∈ candidates, d.1 ∈ before.map Prod.fst →
        Binary32.lt c.2 d.2 = false := by
      intro d hd hmem
      obtain ⟨d', hd', heq⟩ := List.mem_map.mp hmem
      obtain rfl := hsame (hsplit ▸ List.mem_append_left _ hd') (hperm.mem_iff.mpr hd) heq
      rw [hsplit, List.pairwise_append] at hascending
      rw [Bool.eq_false_iff, Ne, Binary32.lt_iff]
      rintro ⟨-, -, hlt⟩
      exact absurd hlt (not_lt.mpr (hascending.2.2 d' hd' c List.mem_cons_self))
    have hfar : c'.1 ∉ before.map Prod.fst := by
      intro hmem
      rw [hnear c' hc' hmem] at hlt
      cases hlt
    rw [List.mem_append, not_or] at hleft
    have hnotFilled : c'.1 ∉ filled := fun hmem => hfar
      ((hfilled.left before c after hsplit hleft.1 hleft.2).2.subset hmem)
    have hmemChosen : c'.1 ∈ chosen := (List.mem_append.mp hin).resolve_right hnotFilled
    rcases hchosen.left before c after hsplit hleft.1 with
      hbehind | ⟨front, hfront, ⟨later, rfl⟩, hdom⟩
    · exact absurd (hbehind.subset hmemChosen) hfar
    · rw [List.nil_append] at hdom
      refine ⟨front, later ++ filled, List.append_assoc _ _ _, ?_,
        fun d hd hmem => hnear d hd (hfront.subset hmem), hdom⟩
      have hnotFront : c'.1 ∉ front := fun hmem => hfar (hfront.subset hmem)
      exact List.mem_append_left _ ((List.mem_append.mp hmemChosen).resolve_left hnotFront)

end Hnsw

/-- Seen from the start of the line, the last node is dominated by the one in the middle; it still
fills the second slot. -/
theorem Hnsw.selectNeighbors_selects_line :
    selectNeighbors (lineDistance .euclidean) lineStorage [(2, 0x40800000), (1, 0x3F800000)] 2 =
        .ok [1, 2] ∧
      Selection (lineDistance .euclidean) lineGraph.vector 2
        [(2, 0x40800000), (1, 0x3F800000)] [1, 2] := by
  have hrun : selectNeighbors (lineDistance .euclidean) lineStorage
      [(2, 0x40800000), (1, 0x3F800000)] 2 = .ok [1, 2] := by
    decide +kernel
  obtain ⟨selected, hselect, hselection⟩ :=
    @selectNeighbors_selects _ (lineDistance .euclidean) lineStorage lineGraph.vector 2
      [(2, 0x40800000), (1, 0x3F800000)] (by decide) (by decide) fun _ _ => rfl
  rw [hrun] at hselect
  cases hselect
  exact ⟨hrun, hselection⟩

end BoogyDb
