import BoogyDb.RowRuns

/-!
# The table tree as a set of row ids

`IsBTree g root ids` is what a reader of `btree.rs` means by a B+ tree: leaves of
one depth with ascending row ids, each child of a branch within the branch keys
around it, and a doubly linked chain of the leaves from left to right.  It
follows from `RowTree` (`RowTree.isBTree`).

A run of the tree goes along with a run of a set of row ids (`KeySetRun`), and
after every step the tree is a B+ tree of that set (`table_tree_acts_as_set`).  The
bulk operations pass over rows that look like overflow cells, so the condition
on the stored rows is needed (`not_table_tree_acts_as_set`).
-/

namespace BoogyDb

open Bytes BinarySearch Wp WriteGuard FencedTree BTreeWriter

/-! ## B+ trees of pages -/

section

variable [Crc32Fast]

/-- The children of a branch, each between the keys around it. -/
def Children (sub : WithBot UInt64 → WithTop UInt64 → ℕ → List (ℕ × List UInt64) → Prop)
    (hi : WithTop UInt64) :
    WithBot UInt64 → List UInt64 → List ℕ → List (List (ℕ × List UInt64)) → Prop
  | lo, [], [child], [part] => sub lo hi child part
  | lo, key :: keys, child :: children, part :: parts =>
      sub lo key child part ∧ Children sub hi key keys children parts
  | _, _, _, _ => False

/-- The page `p` is the root of a subtree of this depth.  Its leaves, with the row
ids on them, are `leaves`, and its row ids are in `[lo, hi)`. -/
def Subtree (v : ℕ → Result Page) :
    ℕ → WithBot UInt64 → WithTop UInt64 → ℕ → List (ℕ × List UInt64) → Prop
  | 0, lo, hi, p, leaves => ∃ rows next prev ids, leaves = [(p, ids)] ∧
      v p = .ok (leafPage rows next prev) ∧ Fits rows ∧ HaveIds rows ids ∧
      ids.Pairwise (· < ·) ∧ ∀ id ∈ ids, lo ≤ id ∧ (id : WithTop UInt64) < hi
  | d + 1, lo, hi, p, leaves => ∃ children keys parts,
      v p = .ok (rowBranch.branchPage children keys) ∧ rowBranch.BranchFits children keys ∧
      keys ≠ [] ∧ leaves = parts.flatten ∧ Children (Subtree v d) hi lo keys children parts

/-- The leaf pages are linked in both directions, from `before` to the end. -/
def Linked (v : ℕ → Result Page) : ℕ → List ℕ → Prop
  | _, [] => True
  | before, p :: pages => (∃ page, v p = .ok page ∧ page.prevLeaf = before ∧
      page.nextLeaf = pages.headD 0) ∧ (∀ q ∈ pages, q ≠ 0) ∧ Linked v p pages

/-- The pages below `root` are a B+ tree of the row ids `ids`. -/
def IsBTree (g : WriteGuard) (root : ℕ) (ids : Set UInt64) : Prop :=
  ∃ depth leaves, Subtree g.view depth ⊥ ⊤ root leaves ∧ (leaves.map Prod.fst).Nodup ∧
    Linked g.view 0 (leaves.map Prod.fst) ∧
    findLeftmostLeafW g root = .ok ((leaves.map Prod.fst).headD 0) ∧
    ids = {id | ∃ leaf ∈ leaves, id ∈ leaf.2}

/-! ## From the invariant -/

section

variable {g : WriteGuard} {root : ℕ} {leaves pre post : List (Leaf UInt64 StoredRow)}
  {l : Leaf UInt64 StoredRow} {branches : List ℕ} {v : ℕ → Result Page} {d : ℕ}

/-- A leaf as `Subtree` sees it. -/
def leafIds (l : Leaf UInt64 StoredRow) : ℕ × List UInt64 := (l.page, l.entries.map Prod.fst)

/-- The leaf is on its page, with its ids. -/
def OnPage (v : ℕ → Result Page) (l : Leaf UInt64 StoredRow) : Prop :=
  (∃ next prev, v l.page = .ok (leafPage (rowsOf cellOf l) next prev)) ∧
    Fits (rowsOf cellOf l) ∧ HaveIds (rowsOf cellOf l) (l.entries.map Prod.fst)

omit [Crc32Fast] in
theorem Ordered.sublist {leaves leaves' : List (Leaf UInt64 StoredRow)} (h : Ordered leaves)
    (hsub : leaves'.Sublist leaves) : Ordered leaves' :=
  ⟨fun l hl => h.sorted l (hsub.subset hl), h.before.sublist hsub⟩

/-- The trees below a branch, with their leaves cut at the branch keys. -/
theorem children_of_segs {segs : List (Segment UInt64)} {keys : List UInt64}
    {lo : WithBot UInt64} {hi : WithTop UInt64}
    (hsub : ∀ t ∈ segs, ∀ leaves hi, leaves.map Leaf.span = t.leaves → Ordered leaves →
      (∀ l ∈ leaves, OnPage v l) → (∀ e ∈ contents leaves, (e.1 : WithTop UInt64) < hi) →
        Subtree v d t.fence hi t.page (leaves.map leafIds))
    (hspans : ∀ t ∈ segs, Spans (IsBranch rowBranch v) d t)
    (hfences : segs.map Segment.fence = lo :: keys.map WithBot.some)
    (heq : leaves.map Leaf.span = segs.flatMap Segment.leaves) (hord : Ordered leaves)
    (hpage : ∀ l ∈ leaves, OnPage v l)
    (hhi : ∀ e ∈ contents leaves, (e.1 : WithTop UInt64) < hi) :
    ∃ parts, leaves.map leafIds = parts.flatten ∧
      Children (Subtree v d) hi lo keys (segs.map Segment.page) parts := by
  induction keys generalizing segs lo leaves with
  | nil =>
      obtain ⟨t, segs, rfl⟩ := List.exists_cons_of_length_eq_add_one
        (show segs.length = 0 + 1 by simpa using congrArg List.length hfences)
      obtain ⟨rfl, hnil⟩ := List.cons.inj hfences
      obtain rfl : segs = [] := List.map_eq_nil_iff.mp hnil
      rw [List.flatMap_singleton] at heq
      exact ⟨[leaves.map leafIds], by simp, hsub t List.mem_cons_self leaves hi heq hord hpage hhi⟩
  | cons key keys ih =>
      obtain ⟨t, segs, rfl⟩ := List.exists_cons_of_length_eq_add_one
        (show segs.length = (keys.length + 1) + 1 by simpa using congrArg List.length hfences)
      obtain ⟨rfl, hrest⟩ := List.cons.inj hfences
      rw [List.flatMap_cons] at heq
      obtain ⟨mine, others, rfl, hmine, hothers⟩ := List.map_eq_append_iff.mp heq
      -- the first leaf behind has the key as its fence
      have hbelow : ∀ e ∈ contents mine, (e.1 : WithTop UInt64) < key := by
        obtain ⟨u, segs', rfl⟩ := List.exists_cons_of_length_eq_add_one
          (show segs.length = keys.length + 1 by simpa using congrArg List.length hrest)
        obtain ⟨hfence, -⟩ := List.cons.inj hrest
        obtain ⟨p, rest, hhead⟩ := (hspans u
          (List.mem_cons_of_mem _ List.mem_cons_self)).exists_head
        rw [List.flatMap_cons, hhead, List.cons_append] at hothers
        obtain ⟨q, others', rfl, hq, -⟩ := List.map_eq_cons_iff.mp hothers
        have hqfence : q.fence = key := (congrArg Prod.fst hq).trans hfence
        intro e he
        obtain ⟨a, ha, he⟩ := List.mem_flatMap.mp he
        have hlt := ((List.pairwise_append.mp hord.before).2.2 a ha q List.mem_cons_self).entries e
          he
        rw [hqfence] at hlt
        exact WithTop.coe_lt_coe.mpr (WithBot.coe_lt_coe.mp hlt)
      obtain ⟨parts, hparts, hchildren⟩ := ih (fun u hu => hsub u (List.mem_cons_of_mem _ hu))
        (fun u hu => hspans u (List.mem_cons_of_mem _ hu)) hrest hothers
        (Ordered.sublist hord (List.sublist_append_right _ _))
        (fun l hl => hpage l (List.mem_append_right _ hl))
        fun e he => hhi e (by rw [contents_append]; exact List.mem_append_right _ he)
      refine ⟨mine.map leafIds :: parts, ?_, ?_, hchildren⟩
      · rw [List.map_append, hparts, List.flatten_cons]
      · exact hsub t List.mem_cons_self mine key hmine
          (Ordered.sublist hord (List.sublist_append_left _ _))
          (fun l hl => hpage l (List.mem_append_left _ hl)) hbelow

/-- **The pages below a segment are a subtree.** -/
theorem subtree_of_spans {s : Segment UInt64} (hspans : Spans (IsBranch rowBranch v) d s)
    (hi : WithTop UInt64) (leaves : List (Leaf UInt64 StoredRow))
    (heq : leaves.map Leaf.span = s.leaves) (hord : Ordered leaves)
    (hpage : ∀ l ∈ leaves, OnPage v l)
    (hhi : ∀ e ∈ contents leaves, (e.1 : WithTop UInt64) < hi) :
    Subtree v d s.fence hi s.page (leaves.map leafIds) := by
  induction d generalizing s hi leaves with
  | zero =>
      rw [hspans.1] at heq
      obtain ⟨l, rest, rfl, hl, hnil⟩ := List.map_eq_cons_iff.mp heq
      obtain rfl : rest = [] := List.map_eq_nil_iff.mp hnil
      obtain ⟨⟨next, prev, hview⟩, hfits, hids⟩ := hpage l List.mem_cons_self
      have hsorted := hord.sorted l List.mem_cons_self
      have hfence : l.fence = s.fence := congrArg Prod.fst hl
      have hpageEq : l.page = s.page := congrArg Prod.snd hl
      refine ⟨_, next, prev, _, ?_, hpageEq ▸ hview, hfits, hids,
        List.pairwise_map.mpr hsorted.increase, ?_⟩
      · rw [List.map_singleton, leafIds, hpageEq]
      · intro id hid
        obtain ⟨e, he, rfl⟩ := List.mem_map.mp hid
        exact ⟨hfence ▸ hsorted.fenced e he, hhi e (mem_contents List.mem_cons_self he)⟩
  | succ d ih =>
      obtain ⟨segs, keys, hj, hsegs⟩ := hspans
      obtain ⟨parts, hparts, hchildren⟩ := children_of_segs
        (fun t ht leaves hi => ih (hsegs t ht) hi leaves) hsegs hj.fences
        (heq.trans hj.leaves) hord hpage hhi
      exact ⟨_, keys, parts, hj.page.1, hj.page.2, hj.keys_ne, hparts, hchildren⟩

theorem linked_of_chained {before : ℕ} (h : Chained cellOf v before leaves 0)
    (hbefore : before < pageNoLimit) (hpages : ∀ l ∈ leaves, l.page < pageNoLimit)
    (htail : ∀ l ∈ leaves.tail, l.page ≠ 0) : Linked v before (leaves.map Leaf.page) := by
  induction leaves generalizing before with
  | nil => trivial
  | cons l leaves ih =>
      obtain ⟨⟨hview, -⟩, hrest⟩ := h
      have hnext : nextPage leaves 0 = (leaves.map Leaf.page).headD 0 := by
        cases leaves <;> rfl
      have hlimit : nextPage leaves 0 < pageNoLimit := by
        cases leaves with
        | nil => exact Nat.two_pow_pos _
        | cons q leaves => exact hpages q (List.mem_cons_of_mem _ List.mem_cons_self)
      refine ⟨⟨_, hview, prevLeaf_leafPage hbefore, ?_⟩, ?_, ?_⟩
      · rw [nextLeaf_leafPage hlimit, hnext]
      · intro p hp
        obtain ⟨q, hq, rfl⟩ := List.mem_map.mp hp
        exact htail q hq
      · exact ih hrest (hpages l List.mem_cons_self)
          (fun q hq => hpages q (List.mem_cons_of_mem _ hq))
          fun q hq => htail q (List.mem_of_mem_tail hq)

/-- The row ids of the entries. -/
def idsIn (leaves : List (Leaf UInt64 StoredRow)) : Set UInt64 :=
  {id | ∃ e ∈ contents leaves, e.1 = id}

/-- **A tree that keeps its rows is a B+ tree of their ids.** -/
theorem RowTree.isBTree (h : RowTree g root leaves branches) : IsBTree g root (idsIn leaves) := by
  obtain ⟨d, hspans⟩ := h.tree.spans
  obtain ⟨first, rest, page, hfirst, hdescend⟩ := h.tree.descend_leftmost
    "B+ tree depth exceeds maximum in find_leftmost_leaf_w"
  have hpages : (leaves.map leafIds).map Prod.fst = leaves.map Leaf.page := by
    rw [List.map_map]
    rfl
  refine ⟨d, leaves.map leafIds, ?_, ?_, ?_, ?_, ?_⟩
  · refine subtree_of_spans hspans ⊤ leaves rfl h.tree.ordered (fun l hl => ?_)
      fun e _ => WithTop.coe_lt_top _
    obtain ⟨pre, post, rfl⟩ := List.append_of_mem hl
    exact ⟨⟨_, _, h.tree.chained.leafAt.view⟩, h.tree.chained.leafAt.fits, h.cells.haveIds hl⟩
  · rw [hpages]
    exact (List.nodup_append.mp h.tree.nodup).1
  · rw [hpages]
    refine linked_of_chained h.tree.chained (Nat.two_pow_pos _)
      (fun l hl => h.tree.page_lt_limit hl) fun l hl => h.tree.tail_ne l.page ?_
    rw [← List.map_tail]
    exact List.mem_map_of_mem hl
  · rw [hpages, findLeftmostLeafW, hdescend, hfirst]
    rfl
  · ext id
    rw [idsIn, Set.mem_ofPred_eq, Set.mem_ofPred_eq]
    constructor
    · rintro ⟨e, he, rfl⟩
      obtain ⟨l, hl, he⟩ := List.mem_flatMap.mp he
      exact ⟨leafIds l, List.mem_map_of_mem hl, List.mem_map_of_mem he⟩
    · rintro ⟨leaf, hleaf, hid⟩
      obtain ⟨l, hl, rfl⟩ := List.mem_map.mp hleaf
      obtain ⟨e, he, rfl⟩ := List.mem_map.mp hid
      exact ⟨e, mem_contents hl he, rfl⟩

end

/-! ## Searching, and inserting a row id twice -/

section

variable {g g' : WriteGuard} {root : ℕ} {m : UInt64 → Option (List UInt8)} {rowid : UInt64}
  {row : List UInt8} {depthError : String}

/-- A search reaches a cell exactly when there is a row. -/
theorem searchCell_holds (h : Holds g root m) (depthError : String) (rowid : UInt64) :
    ∃ cell, searchCell depthError g.view root rowid = .ok cell ∧
      cell.isSome = (m rowid).isSome := by
  have hsearch := searchTree_holds h depthError rowid
  rw [searchTree_eq_searchCell] at hsearch
  obtain ⟨cell, hcell, hrest⟩ := bind_eq_ok.mp hsearch
  refine ⟨cell, hcell, ?_⟩
  cases cell with
  | none => rw [← Except.ok.inj hrest]
  | some raw =>
      obtain ⟨full, -, hfull⟩ := bind_eq_ok.mp hrest
      rw [← Except.ok.inj hfull]
      rfl

/-- A fault of the leaf code that leaves the state alone is the fault of the insertion. -/
theorem insertRecursive_error {key : UInt64} {intoLeaf : ℕ → Page →
      StateResult WriteGuard (InsertResult UInt64)} {fuel p leaf : ℕ} {page : Page} {e : Fault}
    (hdescend : descend depthError g.view (routeKey rowBranch key) fuel p = .ok (leaf, page))
    (h : wp (intoLeaf leaf page) (fun _ _ => False) (fun e' g' => e' = e ∧ g' = g) g) :
    wp (insertRecursive rowBranch depthError key intoLeaf fuel p) (fun _ _ => False)
      (fun e' g' => e' = e ∧ g' = g) g := by
  induction fuel generalizing p with
  | zero => cases hdescend
  | succ fuel ih =>
      rw [descend] at hdescend
      obtain ⟨root, hroot, hdescend⟩ := bind_eq_ok.mp hdescend
      rw [insertRecursive, wp_bind, readPage, wp_readOnly, hroot]
      dsimp only
      cases hleaf : root.isLeaf with
      | true =>
          rw [if_pos hleaf] at hdescend
          obtain ⟨rfl, rfl⟩ := Prod.mk.inj (Except.ok.inj hdescend)
          rw [if_pos rfl]
          exact h
      | false =>
          rw [if_neg (by simp [hleaf]), routeKey] at hdescend
          obtain ⟨child, hchild, hdescend⟩ := bind_eq_ok.mp hdescend
          obtain ⟨⟨idx, child'⟩, hfind, hpure⟩ := bind_eq_ok.mp hchild
          obtain rfl : child' = child := Except.ok.inj hpure
          rw [if_neg Bool.false_ne_true, wp_bind, wp_lift_ok hfind]
          dsimp only
          rw [wp_bind]
          exact (ih hdescend).post fun _ _ => False.elim

/-- **A row id that is there is rejected**, whatever the row. -/
theorem insert_duplicate (h : Holds g root m) (hm : (m rowid).isSome) (row : List UInt8) :
    BTreeWriter.insert root rowid row g = .error (.error (.duplicateKey rowid)) g := by
  obtain ⟨leaves, branches, htree, hrep⟩ := h
  obtain ⟨pre, l, post, rfl, hle, hlt, -, hdescend⟩ := htree.tree.descend_key rowid
    "B+ tree depth exceeds maximum in insert_recursive"
  have hinsert : wp (BTreeWriter.insert root rowid row) (fun _ _ => False)
      (fun e g' => e = .error (.duplicateKey rowid) ∧ g' = g) g := by
    rw [BTreeWriter.insert, wp_bind]
    refine (insertRecursive_error hdescend ?_).post fun _ _ => False.elim
    rcases @findInsertionPoint_found _ _ _ _ rowid _ _ _ _ _ htree.cells (nextPage post 0) (lastPage 0 pre)
      hle hlt with ⟨pos, hpos, hid, hfind⟩ | ⟨pos, hnot, hfind⟩
    · rw [BTreeWriter.insertIntoLeaf, wp_bind, wp_lift_ok hfind]
      exact wp_ite (fun _ => ⟨rfl, rfl⟩) fun hfalse => absurd rfl hfalse
    · obtain ⟨old, hold⟩ := Option.isSome_iff_exists.mp hm
      obtain ⟨s, hs, -⟩ := mem_rowsIn_iff.mp ((hrep.mem_iff rowid old).mpr hold)
      exact absurd hs (hnot s)
  cases hx : BTreeWriter.insert root rowid row g with
  | ok root' g' => exact (hinsert.ok hx).elim
  | error e g' =>
      obtain ⟨rfl, rfl⟩ := hinsert.error hx
      rfl

end

/-! ## Runs -/

/-- The depth error of a search through the guard. -/
def searchError : String := "B+ tree depth exceeds maximum in search_recursive_w"

/-- The row ids whose cells satisfy the predicate of a bulk operation. -/
def matchingIds (g : WriteGuard) (root : ℕ) (pred : List UInt8 → Bool) : Set UInt64 :=
  {id | ∃ cell, searchCell searchError g.view root id = .ok (some cell) ∧ pred cell = true}

/-- A run of a table tree, with the same operations on a set of row ids. -/
inductive KeySetRun (room : WriteGuard → ℕ → UInt64 → List UInt8 → Prop)
    (storable : UInt64 → List UInt8 → Prop) (g₀ : WriteGuard) :
    ℕ → WriteGuard → Set UInt64 → Prop
  | create {root : ℕ} {g : WriteGuard} (h : create g₀ = .ok root g) :
      KeySetRun room storable g₀ root g ∅
  | insert {root root' : ℕ} {g g' : WriteGuard} {ids : Set UInt64} {rowid : UInt64}
      {row : List UInt8} (hrun : KeySetRun room storable g₀ root g ids)
      (hroom : room g root rowid row) (hrow : storable rowid row)
      (h : BTreeWriter.insert root rowid row g = .ok root' g') :
      KeySetRun room storable g₀ root' g' (insert rowid ids)
  | insertRejected {root : ℕ} {g g' : WriteGuard} {ids : Set UInt64} {rowid : UInt64}
      {row : List UInt8} {e : Fault} (hrun : KeySetRun room storable g₀ root g ids)
      (hroom : room g root rowid row) (hrow : storable rowid row)
      (h : BTreeWriter.insert root rowid row g = .error e g') (hpages : ¬ AllocFault e) :
      KeySetRun room storable g₀ root g' ids
  | delete {root : ℕ} {g g' : WriteGuard} {ids : Set UInt64} {rowid : UInt64} {found : Bool}
      (hrun : KeySetRun room storable g₀ root g ids)
      (h : BTreeWriter.delete root rowid g = .ok found g') :
      KeySetRun room storable g₀ root g' (ids \ {rowid})
  | deleteMatching {root : ℕ} {g g' : WriteGuard} {ids : Set UInt64} {pred : List UInt8 → Bool}
      {deleted : List (UInt64 × List UInt8)} (hrun : KeySetRun room storable g₀ root g ids)
      (h : BTreeWriter.deleteMatching root pred g = .ok deleted g') :
      KeySetRun room storable g₀ root g' (ids \ matchingIds g root pred)
  | updateMatching {root : ℕ} {g g' : WriteGuard} {ids : Set UInt64} {pred : List UInt8 → Bool}
      {updater : List UInt8 → List UInt8} {updated left : List RowUpdate}
      (hrun : KeySetRun room storable g₀ root g ids)
      (hrows : ∀ id row, BTreeWriter.search g root id = .ok (some row) → storable id (updater row))
      (h : BTreeWriter.updateMatching root pred updater g = .ok (updated, left) g') :
      KeySetRun room storable g₀ root g' ids
  | commit {root : ℕ} {g file : WriteGuard} {ids : Set UInt64} {afterImages : List (ℕ × Page)}
      (hrun : KeySetRun room storable g₀ root g ids) (h : g.commit = .ok (afterImages, file)) :
      KeySetRun room storable g₀ root file ids

/-- The row ids of a map. -/
def idsOf (m : UInt64 → Option (List UInt8)) : Set UInt64 := {id | (m id).isSome}

section

variable {g g' : WriteGuard} {root : ℕ} {m : UInt64 → Option (List UInt8)} {ids : Set UInt64}

omit [Crc32Fast] in
theorem idsOf_update_some (rowid : UInt64) (row : List UInt8) :
    idsOf (Function.update m rowid (some row)) = insert rowid (idsOf m) := by
  ext id
  rcases eq_or_ne id rowid with rfl | hne
  · simp [idsOf]
  · simp [idsOf, hne]

omit [Crc32Fast] in
theorem idsOf_update_none (rowid : UInt64) :
    idsOf (Function.update m rowid none) = idsOf m \ {rowid} := by
  ext id
  rcases eq_or_ne id rowid with rfl | hne
  · simp [idsOf]
  · simp [idsOf, hne]

omit [Crc32Fast] in
/-- The rows that are updated are there. -/
theorem idsOf_applyUpdates {updates : List RowUpdate}
    (h : ∀ u ∈ updates, (m u.1).isSome) : idsOf (applyUpdates m updates) = idsOf m := by
  ext id
  rw [idsOf, idsOf, Set.mem_ofPred_eq, Set.mem_ofPred_eq, applyUpdates]
  cases hfind : updates.find? fun u => u.1 == id with
  | none => rfl
  | some u =>
      have hid : u.1 = id := by simpa using List.find?_some hfind
      have hm := h u (List.mem_of_find?_eq_some hfind)
      rw [hid] at hm
      simp [hm]

/-- **A bulk deletion removes the ids whose cells satisfy the predicate.** -/
theorem wp_deleteMatching_ids {pred : List UInt8 → Bool} (h : Holds g root m) :
    wp (deleteMatching root pred) (fun _ g' => ∃ m', Holds g' root m' ∧
      idsOf m' = idsOf m \ matchingIds g root pred) (fun e g' => e = .overflow ∧ g' = g) g := by
  obtain ⟨leaves, branches, htree, hrep⟩ := h
  refine (wp_deleteMatching_rows htree).post ?_
  rintro deleted g' ⟨rfl, htree', -⟩
  refine ⟨_, ⟨_, _, htree', htree.removeRows hrep htree'⟩, ?_⟩
  have hmatch : ∀ id, (m id).isSome → (id ∈ (leaves.flatMap (matchedIn pred)).map Prod.fst ↔
      id ∈ matchingIds g root pred) := by
    intro id hid
    obtain ⟨row, hrow⟩ := Option.isSome_iff_exists.mp hid
    obtain ⟨s, hs, -⟩ := mem_rowsIn_iff.mp ((hrep.mem_iff id row).mpr hrow)
    have hcell : searchCell searchError g.view root id = .ok (some (cellOf (id, s))) :=
      searchCell_entry htree.cells hs searchError
    constructor
    · intro hmem
      obtain ⟨r, hr, rfl⟩ := List.mem_map.mp hmem
      obtain ⟨e, he, hp, rfl⟩ := mem_flatMap_matchedIn.mp hr
      exact ⟨cellOf e, searchCell_entry htree.cells he searchError, hp⟩
    · rintro ⟨cell, hcell', hp⟩
      obtain rfl := Option.some.inj (Except.ok.inj (hcell.symm.trans hcell'))
      exact List.mem_map.mpr ⟨_, mem_flatMap_matchedIn.mpr ⟨_, hs, hp, rfl⟩, rfl⟩
  ext id
  rw [idsOf, Set.mem_ofPred_eq, removeRows, Set.mem_sdiff, idsOf, Set.mem_ofPred_eq]
  constructor
  · intro hid
    by_cases hmem : id ∈ (leaves.flatMap (matchedIn pred)).map Prod.fst
    · rw [if_pos hmem] at hid
      cases hid
    · rw [if_neg hmem] at hid
      exact ⟨hid, fun hin => hmem ((hmatch id hid).mpr hin)⟩
  · rintro ⟨hid, hnot⟩
    rwa [if_neg fun hmem => hnot ((hmatch id hid).mp hmem)]

/-- A bulk update keeps the ids. -/
theorem wp_updateMatching_ids {pred : List UInt8 → Bool} {updater : List UInt8 → List UInt8}
    (h : Holds g root m) (hstore : ∀ id row, m id = some row → Storable id (updater row)) :
    wp (updateMatching root pred updater) (fun _ g' => ∃ m', Holds g' root m' ∧ idsOf m' = idsOf m)
      (fun e g' => e = .overflow ∧ g' = g) g := by
  obtain ⟨leaves, branches, htree, hrep⟩ := h
  have hmap : ∀ e ∈ contents leaves, m e.1 = some e.2.row := fun e he =>
    (hrep.mem_iff _ _).mp (mem_rowsIn_iff.mpr ⟨e.2, he, rfl⟩)
  refine (wp_updateMatching_rows htree fun e he _ => hstore _ _ (hmap e he)).post ?_
  rintro ⟨updated, left⟩ g' ⟨hupdated, -, htree', -⟩
  dsimp only at hupdated
  subst hupdated
  refine ⟨_, ⟨_, _, htree', RowTree.applyUpdates hrep htree'⟩, idsOf_applyUpdates ?_⟩
  intro u hu
  obtain ⟨l, hl, -, e, he, -, rfl⟩ := mem_updatesInPlace.mp hu
  rw [hmap e (mem_contents hl he)]
  rfl

/-- **In every run whose insertions find room and whose rows are storable, the tree
holds rows under the ids of the set.** -/
theorem KeySetRun.holds {g₀ : WriteGuard} (h : KeySetRun InsertRoom Storable g₀ root g ids) :
    ∃ m, Holds g root m ∧ idsOf m = ids := by
  induction h with
  | create h =>
      refine ⟨_, (@wp_create_holds _ _ (fun _ _ => True) fun _ _ => trivial).ok h, ?_⟩
      simp [idsOf]
  | insert _ hroom hrow h ih =>
      obtain ⟨m, hm, rfl⟩ := ih
      exact ⟨_, (wp_insert_holds hm hroom hrow).ok h, idsOf_update_some _ _⟩
  | insertRejected _ hroom hrow h hpages ih =>
      obtain ⟨m, hm, rfl⟩ := ih
      obtain rfl := ((wp_insert_holds hm hroom hrow).error h).resolve_left hpages
      exact ⟨m, hm, rfl⟩
  | delete _ h ih =>
      obtain ⟨m, hm, rfl⟩ := ih
      exact ⟨_, ((@wp_delete_holds _ _ _ _ _ (fun _ _ => True) hm).ok h).2, idsOf_update_none _⟩
  | deleteMatching _ h ih =>
      obtain ⟨m, hm, rfl⟩ := ih
      exact (wp_deleteMatching_ids hm).ok h
  | @updateMatching _ _ _ _ _ _ _ _ _ hrows h ih =>
      obtain ⟨m, hm, rfl⟩ := ih
      refine (wp_updateMatching_ids hm fun id row hrow => hrows id row ?_).ok h
      rw [BTreeWriter.search, searchTree_holds hm, hrow]
  | commit _ h ih =>
      obtain ⟨m, hm, rfl⟩ := ih
      exact ⟨m, hm.commit h, rfl⟩

end

/-- The tree is a B+ tree of `ids`, and its operations are those of that set. -/
structure ActsAsSet (g : WriteGuard) (root : ℕ) (ids : Set UInt64) : Prop where
  tree : IsBTree g root ids
  search : ∀ rowid, ∃ cell, searchCell searchError g.view root rowid = .ok cell ∧
    (cell.isSome ↔ rowid ∈ ids)
  insert : ∀ rowid ∈ ids, ∀ row,
    BTreeWriter.insert root rowid row g = .error (.error (.duplicateKey rowid)) g
  delete : ∀ rowid, ∃ found g', BTreeWriter.delete root rowid g = .ok found g' ∧
    (found = true ↔ rowid ∈ ids)

theorem Holds.actsAsSet {g : WriteGuard} {root : ℕ} {m : UInt64 → Option (List UInt8)}
    (h : Holds g root m) : ActsAsSet g root (idsOf m) where
  tree := by
    obtain ⟨leaves, branches, htree, hrep⟩ := h
    have hids : idsOf m = idsIn leaves := by
      ext id
      rw [idsOf, idsIn, Set.mem_ofPred_eq, Set.mem_ofPred_eq, Option.isSome_iff_exists]
      constructor
      · rintro ⟨row, hrow⟩
        obtain ⟨s, hs, -⟩ := mem_rowsIn_iff.mp ((hrep.mem_iff id row).mpr hrow)
        exact ⟨_, hs, rfl⟩
      · rintro ⟨e, he, rfl⟩
        exact ⟨_, (hrep.mem_iff _ _).mp (mem_rowsIn_iff.mpr ⟨e.2, he, rfl⟩)⟩
    rw [hids]
    exact htree.isBTree
  search rowid := by
    obtain ⟨cell, hcell, hsome⟩ := searchCell_holds h searchError rowid
    exact ⟨cell, hcell, by rw [hsome]; rfl⟩
  insert rowid hid row := insert_duplicate h hid row
  delete rowid := by
    have hdelete : wp (BTreeWriter.delete root rowid) _ (fun _ _ => False) g := wp_delete_holds h
    obtain ⟨found, g', hok, rfl, -⟩ := hdelete.exists_ok
    exact ⟨_, g', hok, Iff.rfl⟩

/-- **The table tree is a B+ tree of the row ids**, after every run whose insertions
find room and whose rows are storable. -/
theorem table_tree_acts_as_set {g₀ g : WriteGuard} {root : ℕ} {ids : Set UInt64}
    (h : KeySetRun InsertRoom Storable g₀ root g ids) : ActsAsSet g root ids := by
  obtain ⟨m, hm, rfl⟩ := h.holds
  exact hm.actsAsSet

/-- Every tree of encoded rows acts as the set of their ids. -/
def TableTreeActsAsSet : Prop :=
  ∀ (g₀ g : WriteGuard) (root : ℕ) (ids : Set UInt64),
    KeySetRun InsertRoom EncodedRow g₀ root g ids → ActsAsSet g root ids

/-! ## A row that a bulk deletion passes over -/

/-- A row without columns whose id looks like an overflow marker. -/
def markerLikeRow : List UInt8 := encodeRow 65279 []

omit [Crc32Fast] in
theorem markerLikeRow_eq : markerLikeRow = [255, 254, 0, 0, 0, 0, 0, 0, 0, 0] := by
  rw [markerLikeRow, encodeRow, sortColumns_eq_self List.Pairwise.nil]
  rfl

omit [Crc32Fast] in
/-- The row is read back as a row of no bytes. -/
theorem reassemble_markerLikeRow (read : ℕ → Result Page) :
    reassembleRow read markerLikeRow = .ok [] := by
  have hdecode : decodeOverflowTrailer markerLikeRow = .ok (0, 0, 0) := by
    rw [markerLikeRow_eq]
    rfl
  have hover : hasOverflow markerLikeRow = true := by
    rw [markerLikeRow_eq]
    rfl
  have hinline : bytesOf markerLikeRow 0 0 = .ok [] := rfl
  rw [reassembleRow, hover, if_neg (by simp), hdecode, ok_bind]
  dsimp only
  rw [if_neg (by decide), hinline, ok_bind, readChain_zero]

/-- A bulk deletion of everything leaves the row where it is. -/
theorem deleteMatching_markerLikeRow {g : WriteGuard} {root : ℕ} (hbound : g.bound = 1)
    (hview : g.view root = .ok (leafPage [markerLikeRow] 0 0)) :
    deleteMatching root (fun _ => true) g = .ok [] g := by
  have hfits : Fits [markerLikeRow] := by
    rw [markerLikeRow_eq]
    decide
  have hne : markerLikeRow ≠ [] := by
    rw [markerLikeRow_eq]
    simp
  -- the row that is put together has no id, so it is passed over
  have hmatch : matchRows (fun _ => true) g (leafPage [markerLikeRow] 0 0) = .ok ([], []) := by
    rw [matchRows, forRows_leafPage hfits, List.zipIdx_singleton, List.foldlM_cons, if_neg hne,
      if_pos rfl, reassemble_markerLikeRow]
    rfl
  have hfirst : findLeftmostLeafW g root = .ok root := by
    rw [findLeftmostLeafW, show maxTreeDepth = 63 + 1 from rfl, descend_leaf hview]
    rfl
  have hmax : maxPages g = .ok 1 := by
    rw [maxPages, hbound, if_neg (by decide)]
  have hdelete : wp (deleteMatching root fun _ => true) (fun deleted g' => deleted = [] ∧ g' = g)
      (fun _ _ => False) g := by
    rw [deleteMatching, wp_bind, wp_readOnly, hfirst]
    dsimp only
    rw [wp_bind, wp_readOnly, hmax]
    dsimp only
    rw [rewriteLeaves, wp_bind, readPage, wp_readOnly, hview]
    dsimp only
    rw [wp_bind, deleteMatchingLeaf, wp_bind, wp_readOnly, hmatch]
    dsimp only
    rw [if_pos rfl, wp_pure, nextLeaf_leafPage (Nat.two_pow_pos _), if_pos rfl, wp_pure]
    exact ⟨rfl, rfl⟩
  obtain ⟨deleted, g', hok, rfl, rfl⟩ := hdelete.exists_ok
  exact hok

end

/-- **Not every tree of encoded rows acts as the set of their ids.** -/
theorem not_table_tree_acts_as_set : ¬ @TableTreeActsAsSet crc32Ieee := by
  let := crc32Ieee
  intro h
  have hid : extractId markerLikeRow = .ok 65279 := by
    rw [markerLikeRow_eq]
    rfl
  have hfits : Fits [markerLikeRow] := by
    rw [markerLikeRow_eq]
    decide
  obtain ⟨g, g', hcreate, hview, hinsert, hview', hbound, -⟩ := exists_single_row 65279 hfits
  have hrun : KeySetRun InsertRoom EncodedRow (PageFile.open []) 0 g' (insert 65279 ∅) :=
    .insert (.create hcreate) (insertRoom_emptyRoot _ hfits hview) ⟨[], rfl⟩ hinsert
  -- the bulk deletion changes nothing, and the set loses the id
  have hrun' := hrun.deleteMatching (deleteMatching_markerLikeRow hbound hview')
  obtain ⟨cell, hcell, hiff⟩ := (h _ _ _ _ hrun).search 65279
  obtain ⟨cell', hcell', hiff'⟩ := (h _ _ _ _ hrun').search 65279
  obtain rfl := Except.ok.inj (hcell.symm.trans hcell')
  have hsome : cell.isSome := hiff.mpr (Set.mem_insert _ _)
  obtain ⟨raw, rfl⟩ := Option.isSome_iff_exists.mp hsome
  exact (hiff'.mp hsome).2 ⟨raw, hcell, rfl⟩

/-- Three rows on two leaves, of which one is deleted again. -/
theorem table_tree_acts_as_set_split : letI := crc32Ieee
    ∃ root g g', root ≠ newTree.1 ∧
      KeySetRun InsertRoom Storable (PageFile.open []) root g (insert 3 (insert 2 (insert 1 ∅))) ∧
      BTreeWriter.delete root 2 g = .ok true g' ∧
      ActsAsSet g' root (insert 3 (insert 2 (insert 1 ∅)) \ {2}) := by
  let := crc32Ieee
  obtain ⟨root, g, -, -, htree, hroot, -⟩ := exists_splitTree
  have hnew : KeySetRun InsertRoom Storable (PageFile.open []) newTree.1 newTree.2 ∅ :=
    .create create_newTree
  have hrun : KeySetRun InsertRoom Storable (PageFile.open []) root g
      (insert 3 (insert 2 (insert 1 ∅))) :=
    @insertRows_preserves _ _ (KeySetRun InsertRoom Storable (PageFile.open []))
      (fun ids entry => insert entry.1 ids) threeRows
      (fun entry hmem _ _ _ _ _ hP hroom hinsert =>
        .insert hP hroom (storable_threeRows entry hmem) hinsert) ∅ _ (root, g) hnew htree
  obtain ⟨found, g', hdelete, hfound⟩ := (table_tree_acts_as_set hrun).delete 2
  obtain rfl : found = true := hfound.mpr (.inr (.inl rfl))
  exact ⟨root, g, g', hroot, hrun, hdelete, table_tree_acts_as_set (hrun.delete hdelete)⟩

end BoogyDb
