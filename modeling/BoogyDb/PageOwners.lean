import BoogyDb.IndexSet
import BoogyDb.Lib.Ownership
import BoogyDb.RowRuns

/-!
# The trees of one file

The tables and indexes of a database are trees in one page file.  `RowsAt` and
`KeysAt` say that a table tree or an index tree is on a set of pages, its overflow
chains included; both are local, so the trees of a file keep apart as soon as they
start on pages of their own.  Each operation of a tree is stated once more here,
as a step from one owner to another.

The insertions of the two trees are good only where they find room, and an index
tree takes a key once.  `TreeWriters` names the two insertions, so that a run can
be watched: `watched` fails where the condition does not hold and is the code
everywhere else.
-/

namespace BoogyDb

open Bytes Wp WriteGuard FencedTree Ownership BTreeWriter

section

variable [Crc32Fast]

instance : PageStore WriteGuard Page where
  view g p := (g.view p).toOption
  bound := WriteGuard.bound

variable {g g' : WriteGuard} {root : ℕ} {rowid : UInt64} {row key : List UInt8}
  {m : UInt64 → Option (List UInt8)} {s : Set (List UInt8)} {P P' : Set ℕ}
  {A : Assertion WriteGuard} {E : Fault → WriteGuard → Prop}

theorem view_eq_some {p : ℕ} {page : Page} :
    PageStore.view g p = some page ↔ g.view p = .ok page := by
  show (g.view p).toOption = some page ↔ _
  cases g.view p with
  | ok a => simp [Except.toOption]
  | error e => simp [Except.toOption]

/-- The table tree below `root` stores the rows of `m` on the pages `P`. -/
def RowsAt (root : ℕ) (m : UInt64 → Option (List UInt8)) : Assertion WriteGuard := fun g P =>
  ∃ leaves branches, RowTree g root leaves branches ∧ Represents (rowsIn leaves) m ∧
    P = rowPages leaves branches

/-- The index tree below `root` holds the keys of `s` on the pages `P`. -/
def KeysAt (root : ℕ) (s : Set (List UInt8)) : Assertion WriteGuard := fun g P =>
  ∃ leaves branches, TreeOf idxBranch keyCell g root leaves branches ∧
    (∀ k, k ∈ keysIn leaves ↔ k ∈ s) ∧ P = {p | p ∈ leaves.map Leaf.page ++ branches}

theorem RowsAt.holds (h : RowsAt root m g P) : Holds g root m := by
  obtain ⟨leaves, branches, htree, hrep, -⟩ := h
  exact ⟨leaves, branches, htree, hrep⟩

theorem KeysAt.holds (h : KeysAt root s g P) : HoldsKeys g root s := by
  obtain ⟨leaves, branches, htree, hmem, -⟩ := h
  exact ⟨leaves, branches, htree, hmem⟩

/-- A tree is where its pages are the same. -/
theorem TreeOf.same {κ α : Type} [LinearOrder κ] {fmt : BranchFormat κ}
    {cell : κ × α → List UInt8} {leaves : List (Leaf κ α)} {branches : List ℕ}
    (h : TreeOf fmt cell g root leaves branches)
    (hsame : ∀ p ∈ leaves.map Leaf.page ++ branches, ∀ page, g.view p = .ok page →
      g'.view p = .ok page) (hle : g.bound ≤ g'.bound) :
    TreeOf fmt cell g' root leaves branches := by
  refine h.congr (fun p hp => ?_) hle
  obtain ⟨page, hpage⟩ := h.exists_page hp
  rw [hpage]
  exact hsame p hp page hpage

instance : Local (RowsAt root m) where
  below := by
    rintro g P ⟨leaves, branches, htree, -, rfl⟩ p (hp | ⟨e, he, hp⟩)
    · exact (htree.tree.below p hp).1
    · exact (htree.apart e he p hp).1
  stable := by
    rintro g g' P ⟨leaves, branches, htree, hrep, rfl⟩ hsame hle
    refine ⟨leaves, branches, ⟨?_, fun e he => ?_, fun e he p hp => ?_⟩, hrep, rfl⟩
    · refine htree.tree.same (fun p hp page hview => ?_) hle
      exact view_eq_some.mp (hsame p (.inl hp) page (view_eq_some.mpr hview))
    · refine (htree.kept e he).congr fun p hp => ?_
      obtain ⟨page, hpage⟩ := (htree.kept e he).kept.exists_page hp
      rw [hpage]
      exact view_eq_some.mp (hsame p (.inr ⟨e, he, hp⟩) page (view_eq_some.mpr hpage))
    · obtain ⟨hlt, hnot⟩ := htree.apart e he p hp
      exact ⟨hlt.trans_le hle, hnot⟩

instance : Local (KeysAt root s) where
  below := by
    rintro g P ⟨leaves, branches, htree, -, rfl⟩ p hp
    exact (htree.below p hp).1
  stable := by
    rintro g g' P ⟨leaves, branches, htree, hmem, rfl⟩ hsame hle
    refine ⟨leaves, branches, htree.same (fun p hp page hview => ?_) hle, hmem, rfl⟩
    exact view_eq_some.mp (hsame p hp page (view_eq_some.mpr hview))

/-- What an operation left on its own pages and new ones. -/
theorem turns_of_touches {pages : List ℕ} (hA : A g' P') (ht : Touches g g' pages)
    (hpages : ∀ p ∈ pages, p ∈ P) (hsub : ∀ p ∈ P', p ∈ P ∨ g.bound ≤ p) : Turns A g P g' where
  owns := ⟨P', hA, hsub⟩
  same p hp page hview := by
    obtain ⟨hlt, hnot⟩ := hp
    rw [view_eq_some] at hview ⊢
    rw [ht.view_eq p hlt fun hin => hnot (hpages p hin), hview]
  bound_le := ht.bound_le

/-- **A commit changes nothing.** -/
theorem turns_commit [Local A] {file : PageFile} {afterImages : List (ℕ × Page)} (hA : A g P)
    (h : g.commit = .ok (afterImages, file)) : Turns A g P file := by
  have hsame : ∀ p < g.bound, ∀ page, PageStore.view g p = some page →
      PageStore.view file p = some page := by
    intro p hp page hview
    rw [view_eq_some] at hview ⊢
    exact commit_view h hp hview
  have hle : PageStore.bound g ≤ PageStore.bound file := (commit_bound h).ge
  exact ⟨⟨P, Local.stable hA (fun p hp => hsame p (Local.below hA p hp)) hle, fun _ => .inl⟩,
    fun p hp => hsame p hp.1, hle⟩

/-! ## The table tree -/

theorem wp_create_rowsAt (hE : ∀ e, AllocFault e → E e g) :
    wp BTreeWriter.create (fun root g' => Turns (RowsAt root fun _ => none) g ∅ g') E g := by
  have htree : wp createTree (fun root g' =>
      TreeOf rowBranch cellOf g' root [⟨⊥, root, []⟩] [] ∧ Touches g g' [] ∧ root = g.bound) E g :=
    wp_createTree_tree hE
  refine htree.post fun root g' ⟨htree, ht, hroot⟩ => ?_
  refine turns_of_touches ⟨_, _, ⟨htree, by simp [contents], by simp [contents]⟩, .nil, rfl⟩ ht
    (by simp) ?_
  rintro p (hp | ⟨e, he, -⟩)
  · refine .inr (le_of_eq ?_)
    rw [← hroot]
    exact (List.mem_singleton.mp hp).symm
  · simp [contents] at he

/-- **An insertion that finds room adds its row**, whose id was free. -/
theorem wp_insert_rowsAt (h : RowsAt root m g P) (hroom : InsertRoom g root rowid row)
    (hstore : Storable rowid row) :
    wp (BTreeWriter.insert root rowid row) (fun root' g' => m rowid = none ∧
      Turns (RowsAt root' (Function.update m rowid (some row))) g P g')
      (fun e g' => AllocFault e ∨ g' = g) g := by
  obtain ⟨leaves, branches, htree, hrep, rfl⟩ := h
  refine (wp_insert_rows htree hroom hstore).post ?_
  rintro root' g' ⟨leaves', branches', htree', hperm, ht, hsub⟩
  have hnodup : (((rowid, row) :: rowsIn leaves).map Prod.fst).Nodup :=
    (hperm.map Prod.fst).nodup_iff.mp
      (List.pairwise_map.mpr (htree'.keysIncrease.imp fun hlt => hlt.ne))
  refine ⟨Represents.eq_none hrep fun row' hrow' => ?_,
    turns_of_touches ⟨_, _, htree', hrep.insert htree'.keysIncrease hperm, rfl⟩ ht
      (fun p hp => .inl hp) hsub⟩
  exact (List.nodup_cons.mp hnodup).1 (List.mem_map.mpr ⟨(rowid, row'), hrow', rfl⟩)

theorem wp_delete_rowsAt (h : RowsAt root m g P) :
    wp (BTreeWriter.delete root rowid) (fun found g' => found = (m rowid).isSome ∧
      Turns (RowsAt root (Function.update m rowid none)) g P g') E g := by
  obtain ⟨leaves, branches, htree, hrep, rfl⟩ := h
  refine (wp_delete_rows htree hrep).post ?_
  rintro found g' ⟨hfound, leaves', htree', hrep', ht, hsub⟩
  exact ⟨hfound, turns_of_touches ⟨_, _, htree', hrep', rfl⟩ ht (fun p hp => .inl hp)
    fun p hp => .inl (hsub p hp)⟩

/-- The leaves are rewritten one by one, and take no page. -/
theorem turns_of_leaves {leaves : List (Leaf UInt64 StoredRow)} {branches : List ℕ}
    {f : Leaf UInt64 StoredRow → Leaf UInt64 StoredRow}
    (htree : RowTree g' root (leaves.map f) branches) (hrep : Represents (rowsIn (leaves.map f)) m)
    (ht : Touches g g' (leaves.map Leaf.page)) (hpage : ∀ l, (f l).page = l.page)
    (hchain : ∀ l, ∀ e ∈ (f l).entries, e ∈ l.entries ∨ chainPages e = []) :
    Turns (RowsAt root m) g (rowPages leaves branches) g' := by
  refine turns_of_touches ⟨_, _, htree, hrep, rfl⟩ ht
    (fun p hp => .inl (List.mem_append_left _ hp)) fun p hp => .inl ?_
  have hpages : (leaves.map f).map Leaf.page = leaves.map Leaf.page := by
    rw [List.map_map]
    exact List.map_congr_left fun l _ => hpage l
  rcases hp with hp | ⟨e, he, hp⟩
  · exact .inl (hpages ▸ hp)
  · obtain ⟨l', hl', he⟩ := List.mem_flatMap.mp he
    obtain ⟨l, hl, rfl⟩ := List.mem_map.mp hl'
    rcases hchain l e he with hold | hnone
    · exact .inr ⟨e, mem_contents hl hold, hp⟩
    · rw [hnone] at hp
      exact absurd hp List.not_mem_nil

/-- **A bulk deletion** removes the rows it returns, which are the ones whose cells
satisfy the predicate. -/
theorem wp_deleteMatching_rowsAt {pred : List UInt8 → Bool} (h : RowsAt root m g P) :
    wp (deleteMatching root pred) (fun deleted g' =>
      (∃ leaves branches, RowTree g root leaves branches ∧ Represents (rowsIn leaves) m ∧
        deleted = leaves.flatMap (matchedIn pred)) ∧
      Turns (RowsAt root (removeRows m deleted)) g P g') (fun e g' => e = .overflow ∧ g' = g) g := by
  obtain ⟨leaves, branches, htree, hrep, rfl⟩ := h
  refine (wp_deleteMatching_rows htree).post ?_
  rintro deleted g' ⟨rfl, htree', ht⟩
  refine ⟨⟨leaves, branches, htree, hrep, rfl⟩,
    turns_of_leaves htree' (htree.removeRows hrep htree') ht (fun _ => rfl) fun l e he => ?_⟩
  exact .inl (List.filter_sublist.subset he)

/-- **A bulk update** gives the rows it reports their new bytes, or leaves them. -/
theorem wp_updateMatching_rowsAt {pred : List UInt8 → Bool} {updater : List UInt8 → List UInt8}
    (h : RowsAt root m g P) (hstore : ∀ leaves branches, RowTree g root leaves branches →
      Represents (rowsIn leaves) m → ∀ e ∈ contents leaves, pred (cellOf e) = true →
        Storable e.1 (updater e.2.row)) :
    wp (updateMatching root pred updater) (fun res g' =>
      (∃ leaves branches, RowTree g root leaves branches ∧ Represents (rowsIn leaves) m ∧
        res.1 = leaves.flatMap (updatesInPlace pred updater) ∧
        res.2 = leaves.flatMap (updatesLeft pred updater)) ∧
      Turns (RowsAt root (applyUpdates m res.1)) g P g') (fun e g' => e = .overflow ∧ g' = g) g := by
  obtain ⟨leaves, branches, htree, hrep, rfl⟩ := h
  refine (wp_updateMatching_rows htree (hstore leaves branches htree hrep)).post ?_
  rintro ⟨updated, left⟩ g' ⟨hupdated, hleft, htree', ht⟩
  dsimp only at hupdated hleft ⊢
  refine ⟨⟨leaves, branches, htree, hrep, hupdated, hleft⟩, ?_⟩
  rw [hupdated]
  refine turns_of_leaves htree' (RowTree.applyUpdates hrep htree') ht (fun l => ?_) fun l e he => ?_
  · rw [updateLeaf]
    split <;> rfl
  · rw [updateLeaf] at he
    split at he
    · obtain ⟨b, hb, rfl⟩ := List.mem_map.mp he
      rw [updatedEntry]
      split
      · exact .inr rfl
      · exact .inl hb
    · exact .inl he

/-! ## The index tree -/

theorem wp_create_keysAt (hE : ∀ e, AllocFault e → E e g) :
    wp IndexTreeWriter.create (fun root g' => Turns (KeysAt root ∅) g ∅ g') E g := by
  have htree : wp createTree (fun root g' =>
      TreeOf idxBranch keyCell g' root [⟨⊥, root, []⟩] [] ∧ Touches g g' [] ∧ root = g.bound) E g :=
    wp_createTree_tree hE
  refine htree.post fun root g' ⟨htree, ht, hroot⟩ => ?_
  refine turns_of_touches ⟨_, _, htree, fun k => by simp [keysIn, contents], rfl⟩ ht (by simp) ?_
  intro p hp
  refine .inr (le_of_eq ?_)
  rw [← hroot]
  exact (List.mem_singleton.mp hp).symm

theorem wp_insert_keysAt (h : KeysAt root s g P) (hnew : key ∉ s) (hfits : InsertFits g root key)
    (hsep : InsertSeparates g root key) :
    wp (IndexTreeWriter.insert root key) (fun root' g' => Turns (KeysAt root' (insert key s)) g P g')
      (fun e g' => AllocFault e ∨ g' = g) g := by
  obtain ⟨leaves, branches, htree, hmem, rfl⟩ := h
  refine (wp_insert_keyTree htree hmem hnew hfits hsep).post ?_
  rintro root' g' ⟨leaves', branches', htree', hmem', ht, hsub⟩
  exact turns_of_touches ⟨_, _, htree', hmem', rfl⟩ ht (fun p hp => hp) hsub

theorem wp_delete_keysAt (h : KeysAt root s g P) :
    wp (IndexTreeWriter.delete root key) (fun found g' => (found = true ↔ key ∈ s) ∧
      Turns (KeysAt root (s \ {key})) g P g') E g := by
  obtain ⟨leaves, branches, htree, hmem, rfl⟩ := h
  refine (wp_delete_keyTree htree hmem).post ?_
  rintro found g' ⟨hfound, leaves', htree', hmem', ht, hpages⟩
  refine ⟨hfound, turns_of_touches ⟨_, _, htree', hmem', rfl⟩ ht (fun p hp => hp) fun p hp => .inl ?_⟩
  rw [hpages] at hp
  exact hp

/-! ## Watched insertions -/

/-- The operations that write bytes into the two trees. -/
structure TreeWriters where
  insertRow : ℕ → UInt64 → List UInt8 → StateResult WriteGuard ℕ
  updateRows : ℕ → (List UInt8 → Bool) → (List UInt8 → List UInt8) →
    StateResult WriteGuard (List RowUpdate × List RowUpdate)
  insertKey : ℕ → List UInt8 → StateResult WriteGuard ℕ

/-- `BTreeWriter::insert`, `update_matching` and `IndexTreeWriter::insert`. -/
def TreeWriters.code : TreeWriters where
  insertRow := BTreeWriter.insert
  updateRows := BTreeWriter.updateMatching
  insertKey := IndexTreeWriter.insert

/-- `x`, where `c` holds. -/
noncomputable def watch {α : Type} (c : WriteGuard → Prop) (x : StateResult WriteGuard α) :
    StateResult WriteGuard α := fun g =>
  haveI := Classical.propDecidable (c g)
  if c g then x g else .error .panic g

/-- The key is not in the tree. -/
def KeyIsNew (g : WriteGuard) (root : ℕ) (key : List UInt8) : Prop :=
  ∀ s, HoldsKeys g root s → key ∉ s

/-- The rows that an update writes meet `storable`. -/
def UpdatesStorable (storable : UInt64 → List UInt8 → Prop) (root : ℕ) (pred : List UInt8 → Bool)
    (updater : List UInt8 → List UInt8) (g : WriteGuard) : Prop :=
  ∀ leaves branches, RowTree g root leaves branches →
    ∀ e ∈ contents leaves, pred (cellOf e) = true → storable e.1 (updater e.2.row)

/-- The insertions that find room, of rows that meet `storable` and of keys that are
new and are told apart by what a branch keeps of them. -/
noncomputable def TreeWriters.watched (storable : UInt64 → List UInt8 → Prop) : TreeWriters where
  insertRow root rowid row :=
    watch (fun g => InsertRoom g root rowid row ∧ storable rowid row) (BTreeWriter.insert root rowid row)
  updateRows root pred updater :=
    watch (UpdatesStorable storable root pred updater) (updateMatching root pred updater)
  insertKey root key :=
    watch (fun g => KeyIsNew g root key ∧ InsertFits g root key ∧ InsertSeparates g root key)
      (IndexTreeWriter.insert root key)

omit [Crc32Fast] in
theorem wp_watch {α : Type} {c : WriteGuard → Prop} {x : StateResult WriteGuard α}
    {Q : α → WriteGuard → Prop} (h : c g → wp x Q (fun _ _ => True) g) :
    wp (watch c x) Q (fun _ _ => True) g := by
  by_cases hc : c g
  · have heq : watch c x g = x g := by rw [watch, if_pos hc]
    have hx := h hc
    rw [wp] at hx ⊢
    rwa [heq]
  · rw [wp, watch, if_neg hc]
    trivial

omit [Crc32Fast] in
/-- A watched call that returns is the call. -/
theorem watch_eq_ok {α : Type} {c : WriteGuard → Prop} {x : StateResult WriteGuard α} {a : α}
    (h : watch c x g = .ok a g') : x g = .ok a g' := by
  by_cases hc : c g
  · rwa [watch, if_pos hc] at h
  · rw [watch, if_neg hc] at h
    cases h

variable {storable : UInt64 → List UInt8 → Prop}

/-- **A watched insertion adds its row.** -/
theorem wp_insertRow_watched (h : RowsAt root m g P)
    (hstore : ∀ rowid row, storable rowid row → Storable rowid row) :
    wp ((TreeWriters.watched storable).insertRow root rowid row) (fun root' g' =>
      (storable rowid row ∧ m rowid = none) ∧
      Turns (RowsAt root' (Function.update m rowid (some row))) g P g')
      (fun _ _ => True) g := by
  refine wp_watch fun ⟨hroom, hrow⟩ => ?_
  exact (wp_insert_rowsAt h hroom (hstore _ _ hrow)).mono
    (fun _ _ ⟨hnew, hturn⟩ => ⟨⟨hrow, hnew⟩, hturn⟩) fun _ _ _ => trivial

/-- **A watched update** replaces the rows it says it replaced. -/
theorem wp_updateRows_watched {pred : List UInt8 → Bool} {updater : List UInt8 → List UInt8}
    (h : RowsAt root m g P) (hstore : ∀ rowid row, storable rowid row → Storable rowid row) :
    wp ((TreeWriters.watched storable).updateRows root pred updater) (fun res g' =>
      (∃ leaves branches, RowTree g root leaves branches ∧ Represents (rowsIn leaves) m ∧
        (∀ e ∈ contents leaves, pred (cellOf e) = true → storable e.1 (updater e.2.row)) ∧
        res.1 = leaves.flatMap (updatesInPlace pred updater) ∧
        res.2 = leaves.flatMap (updatesLeft pred updater)) ∧
      Turns (RowsAt root (applyUpdates m res.1)) g P g') (fun _ _ => True) g := by
  refine wp_watch fun hall => ?_
  refine (wp_updateMatching_rowsAt h fun leaves branches htree hrep e he hpred =>
    hstore _ _ (hall leaves branches htree e he hpred)).mono ?_ fun _ _ _ => trivial
  rintro res g' ⟨⟨leaves, branches, htree, hrep, hdone, hleft⟩, hturn⟩
  exact ⟨⟨leaves, branches, htree, hrep, hall leaves branches htree, hdone, hleft⟩, hturn⟩

/-- **A watched insertion adds its key.** -/
theorem wp_insertKey_watched (h : KeysAt root s g P) :
    wp ((TreeWriters.watched storable).insertKey root key) (fun root' g' => key ∉ s ∧
      Turns (KeysAt root' (insert key s)) g P g') (fun _ _ => True) g := by
  refine wp_watch fun ⟨hnew, hfits, hsep⟩ => ?_
  have hkey := hnew s h.holds
  exact (wp_insert_keysAt h hkey hfits hsep).mono (fun _ _ hturn => ⟨hkey, hturn⟩)
    fun _ _ _ => trivial

end

end BoogyDb
