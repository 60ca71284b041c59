import Mathlib.Order.WithBot
import Mathlib.Data.List.Flatten
import Mathlib.Data.List.InsertIdx
import Mathlib.Data.List.Nodup
import Mathlib.Algebra.Group.Nat.Defs

/-!
# Search trees over a list of fenced leaves

A search tree of pages is described by the list of its leaves from left to
right, each with its fence, the lower bound of the keys it may hold, and by the
list of its branch pages.  `Spans branch d s` says that the pages below
`s.page`, down to depth `d`, have the leaves `s.leaves` and the branch pages
`s.branches`; what a branch page is, is the relation `branch`.  The separators
of a branch are the fences of its children but the first.

A key is routed at a branch by the first separator above it.  On sorted fences
this leads towards the last leaf whose fence is not above the key (`Located`,
`Spans.open`).  A tree grows by replacing one child by two (`Joins.insert`) and
by cutting a branch in two (`Joins.split`).
-/

namespace FencedTree

variable {κ : Type}

/-- A subtree, as the branch above it sees it. -/
structure Segment (κ : Type) where
  fence : WithBot κ
  page : ℕ
  leaves : List (WithBot κ × ℕ)
  branches : List ℕ

/-- The branch page of `s` joins the subtrees `segs`, with the separators `keys`. -/
structure Joins (branch : ℕ → List ℕ → List κ → Prop) (s : Segment κ) (segs : List (Segment κ))
    (keys : List κ) : Prop where
  page : branch s.page (segs.map Segment.page) keys
  fences : segs.map Segment.fence = s.fence :: keys.map WithBot.some
  keys_ne : keys ≠ []
  leaves : s.leaves = segs.flatMap Segment.leaves
  branches : s.branches = s.page :: segs.flatMap Segment.branches

/-- The pages below `s.page` are a tree of depth `d` with the leaves and branches
of `s`. -/
def Spans (branch : ℕ → List ℕ → List κ → Prop) : ℕ → Segment κ → Prop
  | 0, s => s.leaves = [(s.fence, s.page)] ∧ s.branches = []
  | d + 1, s => ∃ segs keys, Joins branch s segs keys ∧ ∀ t ∈ segs, Spans branch d t

section

variable {branch branch' : ℕ → List ℕ → List κ → Prop} {d : ℕ} {s : Segment κ}
  {segs : List (Segment κ)} {keys : List κ}

theorem Joins.length_eq (h : Joins branch s segs keys) : segs.length = keys.length + 1 := by
  have hlen := congrArg List.length h.fences
  simpa using hlen

/-- A tree stays one when its branch pages do. -/
theorem Spans.mono (h : Spans branch d s)
    (hmono : ∀ p ∈ s.branches, ∀ children keys, branch p children keys →
      branch' p children keys) : Spans branch' d s := by
  induction d generalizing s with
  | zero => exact h
  | succ d ih =>
      obtain ⟨segs, keys, hj, hsegs⟩ := h
      rw [hj.branches, List.forall_mem_cons] at hmono
      refine ⟨segs, keys, ⟨hmono.1 _ _ hj.page, hj.fences, hj.keys_ne, hj.leaves, hj.branches⟩, ?_⟩
      intro t ht
      exact ih (hsegs t ht) fun p hp => hmono.2 p (List.mem_flatMap.mpr ⟨t, ht, hp⟩)

/-- The fence of a tree is the one of its first leaf. -/
theorem Spans.exists_head (h : Spans branch d s) : ∃ p rest, s.leaves = (s.fence, p) :: rest := by
  induction d generalizing s with
  | zero => exact ⟨s.page, [], h.1⟩
  | succ d ih =>
      obtain ⟨segs, keys, hj, hsegs⟩ := h
      obtain ⟨t, segs, rfl⟩ := List.exists_cons_of_length_eq_add_one hj.length_eq
      have hfence : t.fence = s.fence := (List.cons.inj hj.fences).1
      obtain ⟨p, rest, hleaves⟩ := ih (hsegs t List.mem_cons_self)
      refine ⟨p, rest ++ segs.flatMap Segment.leaves, ?_⟩
      rw [hj.leaves, List.flatMap_cons, hleaves, hfence, List.cons_append]

/-- A tree hangs on one of its own pages. -/
theorem Spans.page_mem (h : Spans branch d s) :
    s.page ∈ s.leaves.map Prod.snd ∨ s.page ∈ s.branches := by
  cases d with
  | zero =>
      rw [h.1]
      exact .inl List.mem_cons_self
  | succ d =>
      obtain ⟨segs, keys, hj, -⟩ := h
      rw [hj.branches]
      exact .inr List.mem_cons_self

/-- The branches of a tree are branches. -/
theorem Spans.exists_branch (h : Spans branch d s) {p : ℕ} (hp : p ∈ s.branches) :
    ∃ children keys, branch p children keys := by
  induction d generalizing s with
  | zero =>
      rw [h.2] at hp
      exact absurd hp List.not_mem_nil
  | succ d ih =>
      obtain ⟨segs, keys, hj, hsegs⟩ := h
      rw [hj.branches, List.mem_cons] at hp
      rcases hp with rfl | hp
      · exact ⟨_, _, hj.page⟩
      · obtain ⟨t, ht, hp⟩ := List.mem_flatMap.mp hp
        exact ih (hsegs t ht) hp

/-- A tree of depth `d` has `2 ^ d` leaves or more. -/
theorem Spans.two_pow_le (h : Spans branch d s) : 2 ^ d ≤ s.leaves.length := by
  induction d generalizing s with
  | zero =>
      rw [h.1]
      exact le_rfl
  | succ d ih =>
      obtain ⟨segs, keys, hj, hsegs⟩ := h
      have hlen := hj.length_eq
      have hkeys := List.length_pos_iff.mpr hj.keys_ne
      obtain ⟨t, segs, rfl⟩ := List.exists_cons_of_length_eq_add_one hlen
      obtain ⟨u, segs, rfl⟩ := List.exists_cons_of_length_pos (by
        rw [List.length_cons] at hlen
        omega : 0 < segs.length)
      have ht := ih (hsegs t List.mem_cons_self)
      have hu := ih (hsegs u (List.mem_cons_of_mem _ List.mem_cons_self))
      rw [hj.leaves, List.flatMap_cons, List.flatMap_cons, List.length_append, List.length_append,
        Nat.pow_succ]
      omega

end

/-! ## Routing -/

section

variable [LinearOrder κ]

/-- The fences of the leaves increase. -/
abbrev Increasing (leaves : List (WithBot κ × ℕ)) : Prop := leaves.Pairwise fun a b => a.1 < b.1

/-- The leaf a key belongs to: its fence is not above the key, those behind it are. -/
structure Located (leaves : List (WithBot κ × ℕ)) (key : κ) (pre : List (WithBot κ × ℕ))
    (leaf : WithBot κ × ℕ) (post : List (WithBot κ × ℕ)) : Prop where
  eq : leaves = pre ++ leaf :: post
  le : leaf.1 ≤ key
  lt : ∀ l ∈ post, (key : WithBot κ) < l.1

/-- The child a key is routed to: the first whose right separator is larger. -/
def childIndex (keys : List κ) (key : κ) : ℕ := keys.findIdx fun k => key < k

theorem childIndex_le (keys : List κ) (key : κ) : childIndex keys key ≤ keys.length :=
  List.findIdx_le_length

theorem childIndex_singleton {k key : κ} (h : k ≤ key) : childIndex [k] key = 1 := by
  rw [childIndex, List.findIdx_singleton, decide_eq_false (not_lt.mpr h), if_neg Bool.false_ne_true]

variable {branch : ℕ → List ℕ → List κ → Prop} {d : ℕ} {s : Segment κ} {key : κ}

theorem Increasing.head_le {leaves : List (WithBot κ × ℕ)} {leaf : WithBot κ × ℕ}
    (h : Increasing (leaf :: leaves)) : ∀ l ∈ leaf :: leaves, leaf.1 ≤ l.1 := by
  intro l hl
  rcases List.mem_cons.mp hl with rfl | hl
  · exact le_rfl
  · exact (List.rel_of_pairwise_cons h hl).le

/-- **Routing at a branch.**  The child a key is routed to has a fence that is not
above the key; all leaves behind that child have fences above it. -/
theorem Spans.open (h : Spans branch (d + 1) s) (hinc : Increasing s.leaves)
    (hkey : s.fence ≤ key) :
    ∃ before t after keys, Joins branch s (before ++ t :: after) keys ∧
      childIndex keys key = before.length ∧ (∀ u ∈ before ++ t :: after, Spans branch d u) ∧
      t.fence ≤ key ∧ ∀ l ∈ after.flatMap Segment.leaves, (key : WithBot κ) < l.1 := by
  obtain ⟨segs, keys, hj, hsegs⟩ := h
  have hlen := hj.length_eq
  set i := childIndex keys key with hi
  have hile : i ≤ keys.length := childIndex_le keys key
  have hilt : i < segs.length := by omega
  obtain ⟨t, ht⟩ : ∃ t, segs[i] = t := ⟨_, rfl⟩
  have hsplit : segs = segs.take i ++ t :: segs.drop (i + 1) := by
    rw [← ht, List.getElem_cons_drop, List.take_append_drop]
  have hfence : ∀ j (h : j < keys.length), (segs.map Segment.fence)[j + 1]? = some ↑keys[j] := by
    intro j hj'
    rw [hj.fences, List.getElem?_cons_succ, List.getElem?_map, List.getElem?_eq_getElem hj']
    rfl
  refine ⟨segs.take i, t, segs.drop (i + 1), keys, hsplit ▸ hj, ?_, hsplit ▸ hsegs, ?_, ?_⟩
  · rw [List.length_take, Nat.min_eq_left hilt.le]
  · -- the separator in front of the routed child is not above the key
    have hget : (segs.map Segment.fence)[i]? = some t.fence := by
      rw [List.getElem?_map, List.getElem?_eq_getElem hilt, ht]
      rfl
    rcases Nat.eq_zero_or_eq_succ_pred i with hzero | hsucc
    · rw [hzero, hj.fences, List.getElem?_cons_zero] at hget
      rw [← Option.some.inj hget]
      exact hkey
    · have hlt : i.pred < keys.length := by omega
      have hbefore : i.pred < keys.findIdx fun k => decide (key < k) := by
        rw [childIndex] at hi
        omega
      have hnot : ¬ key < keys[i.pred] := by
        have := List.not_of_lt_findIdx hbefore
        simpa using this
      rw [hsucc, hfence i.pred hlt] at hget
      rw [← Option.some.inj hget]
      exact WithBot.coe_le_coe.mpr (not_lt.mp hnot)
  · -- the one behind it is, and the leaves behind that are fenced higher still
    intro l hl
    cases hafter : segs.drop (i + 1) with
    | nil =>
        rw [hafter] at hl
        exact absurd hl List.not_mem_nil
    | cons u after =>
        have hlt : i < keys.length := by
          by_contra hge
          rw [List.drop_eq_nil_of_le (by omega)] at hafter
          cases hafter
        have hu : u.fence = keys[i] := by
          have hget : (segs.map Segment.fence)[i + 1]? = some u.fence := by
            rw [List.getElem?_map, ← Nat.add_zero (i + 1), ← List.getElem?_drop, hafter]
            rfl
          rw [hfence i hlt] at hget
          exact (Option.some.inj hget).symm
        have hmem : u ∈ segs := List.mem_of_mem_drop (hafter ▸ List.mem_cons_self)
        obtain ⟨p, rest, hleaves⟩ := (hsegs u hmem).exists_head
        have hsub : ((segs.drop (i + 1)).flatMap Segment.leaves).Sublist s.leaves := by
          rw [hj.leaves]
          exact List.Sublist.flatMap (List.drop_sublist _ _) _
        have hinc' := hinc.sublist hsub
        rw [hafter, List.flatMap_cons, hleaves] at hinc' hl
        have hle := Increasing.head_le hinc' l hl
        have hgt : key < keys[i] := by
          exact of_decide_eq_true (@List.findIdx_getElem _ (fun k => decide (key < k)) keys hlt)
        refine lt_of_lt_of_le ?_ hle
        rw [hu]
        exact WithBot.coe_lt_coe.mpr hgt

/-- The page of the child a key is routed to. -/
theorem getElem?_routed {before : List (Segment κ)} {t : Segment κ} {after : List (Segment κ)}
    {keys : List κ} (h : childIndex keys key = before.length) :
    ((before ++ t :: after).map Segment.page)[childIndex keys key]? = some t.page := by
  rw [h, List.map_append, List.getElem?_append_right (by simp), List.length_map, Nat.sub_self]
  rfl

end

/-! ## Growing -/

section

variable {branch : ℕ → List ℕ → List κ → Prop} {d : ℕ} {segs : List (Segment κ)} {keys : List κ}
  {f : WithBot κ} {p n : ℕ}

/-- The tree with the branch page `p` above the trees `segs`. -/
def joined (f : WithBot κ) (p : ℕ) (segs : List (Segment κ)) : Segment κ where
  fence := f
  page := p
  leaves := segs.flatMap Segment.leaves
  branches := p :: segs.flatMap Segment.branches

theorem Spans.joined (hpage : branch p (segs.map Segment.page) keys)
    (hfences : segs.map Segment.fence = f :: keys.map WithBot.some) (hne : keys ≠ [])
    (hsegs : ∀ t ∈ segs, Spans branch d t) : Spans branch (d + 1) (joined f p segs) :=
  ⟨segs, keys, ⟨hpage, hfences, hne, rfl, rfl⟩, hsegs⟩

theorem insertIdx_after {α : Type} (before : List α) (t u : α) (after : List α) :
    (before ++ t :: after).insertIdx (before.length + 1) u = before ++ t :: u :: after := by
  induction before with
  | nil => rfl
  | cons b before ih =>
      rw [List.cons_append, List.length_cons, List.insertIdx_succ_cons, ih, List.cons_append]

/-- The fences with one more child. -/
theorem fences_insertIdx (hfences : segs.map Segment.fence = f :: keys.map WithBot.some)
    {u : Segment κ} {k : κ} (hu : u.fence = k) :
    (segs.insertIdx (n + 1) u).map Segment.fence = f :: (keys.insertIdx n k).map WithBot.some := by
  rw [List.map_insertIdx, hfences, hu, List.insertIdx_succ_cons, List.map_insertIdx]

/-- The fences of the two parts of a branch that is cut in two. -/
theorem fences_take (hfences : segs.map Segment.fence = f :: keys.map WithBot.some) (mid : ℕ) :
    (segs.take (mid + 1)).map Segment.fence = f :: (keys.take mid).map WithBot.some := by
  rw [List.map_take, hfences, List.take_succ_cons, List.map_take]

theorem fences_drop (hfences : segs.map Segment.fence = f :: keys.map WithBot.some) {mid : ℕ}
    {k : κ} (hk : keys[mid]? = some k) :
    (segs.drop (mid + 1)).map Segment.fence =
      (k : WithBot κ) :: (keys.drop (mid + 1)).map WithBot.some := by
  obtain ⟨hlt, hget⟩ := List.getElem?_eq_some_iff.mp hk
  rw [List.map_drop, hfences, List.drop_succ_cons, ← List.map_drop, List.drop_eq_getElem_cons hlt,
    hget, List.map_cons]

end

end FencedTree
