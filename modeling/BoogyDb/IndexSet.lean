import BoogyDb.Index
import BoogyDb.LeafSplit
import BoogyDb.Lib.ByteOrder
import BoogyDb.OrderedLeaves

/-!
# The index tree as a set of keys

The leaves of an index tree hold its keys in order, and branch keys route to
them (`TreeOf`).  A branch keeps the first 36 bytes of a separator only, so a
split keeps this invariant when the keys of the left half are below these bytes
(`SplitSeparates`); otherwise a key of the left half is looked for in the right
one from then on.

Under that condition the tree acts as a set of byte strings: deletions find the
keys that are there, and the prefix scans list them in order
(`index_tree_acts_as_set`).  Without it a key gets lost
(`not_index_tree_acts_as_set`).
-/

namespace BoogyDb

open Bytes BinarySearch Wp WriteGuard FencedTree ByteOrder

section

variable [Crc32Fast]

/-! ## The keys of a leaf -/

/-- An entry of an index leaf has only a key. -/
abbrev KeyLeaf := Leaf (List UInt8) Unit

def keyCell (e : List UInt8 × Unit) : List UInt8 := encodeEntry e.1

/-- The keys of a leaf. -/
def leafKeys (l : KeyLeaf) : List (List UInt8) := l.entries.map Prod.fst

/-- The keys of the leaves, from left to right. -/
def keysIn (leaves : List KeyLeaf) : List (List UInt8) := (contents leaves).map Prod.fst

section

variable {l : KeyLeaf} {key : List UInt8} {next prev pos : ℕ}

omit [Crc32Fast] in
theorem length_encodeEntry (key : List UInt8) : (encodeEntry key).length = 2 + key.length := by
  rw [encodeEntry, List.length_append, length_leBytes]

/-- Entry `i` of a leaf holds key `i`. -/
theorem decodeLeafEntry_leafPage (hfits : Fits (rowsOf keyCell l)) {i : ℕ}
    (hi : i < l.entries.length) :
    decodeLeafEntry (leafPage (rowsOf keyCell l) next prev) i l.entries.length =
      .ok (some (l.entries[i]).1) := by
  have hlen : (rowsOf keyCell l).length = l.entries.length := List.length_map _
  have hcell : getElem (rowsOf keyCell l) i (hlen ▸ hi) = encodeEntry (l.entries[i]).1 :=
    List.getElem_map _
  have hbounds := @rowBounds_leafPage _ (rowsOf keyCell l) next prev i hfits (hlen ▸ hi)
  have hslice := @slice_leafPage _ (rowsOf keyCell l) next prev i hfits (hlen ▸ hi)
  have hend := @rowEnd_le (rowsOf keyCell l) i hfits (hlen ▸ hi)
  rw [hcell, length_encodeEntry] at hbounds hslice hend
  rw [hlen] at hbounds
  set start := rowStart (rowsOf keyCell l) i
  set key := (l.entries[i]).1
  set page := leafPage (rowsOf keyCell l) next prev
  have hsize : start + (2 + key.length) ≤ pageSize := hend.trans (Nat.sub_le _ _)
  have hshort : key.length < 256 ^ 2 := by
    simp only [pageSize] at hsize
    omega
  -- the two parts of the entry
  have hpart : ∀ a b, b ≤ 2 + key.length →
      slice page.data (start + a) (start + b) = slice (encodeEntry key) a b := by
    intro a b hb
    rw [← hslice, slice_slice _ _ (by omega)]
  have hfirst : slice page.data start (start + 2) = leBytes 2 key.length := by
    have := hpart 0 2 (by omega)
    rw [Nat.add_zero] at this
    rw [this]
    exact slice_eq_of_append (List.nil_append _).symm rfl (by simp)
  have hsecond : slice page.data (start + 2) (start + 2 + key.length) = key := by
    rw [Nat.add_assoc, hpart 2 (2 + key.length) le_rfl]
    exact slice_eq_of_append (show encodeEntry key = leBytes 2 key.length ++ (key ++ []) by
      rw [List.append_nil]; rfl) (by simp) (by simp)
  have hread : readU16 page.data start = .ok key.length := by
    rw [readU16_ok (by rw [Page.size]; omega), readLe, hfirst, leNat_leBytes_of_lt hshort]
  rw [decodeLeafEntry, hbounds, ok_bind]
  dsimp only
  rw [if_neg (by omega), hread, ok_bind, if_neg (by omega),
    bytesOf_ok (Nat.le_add_right _ _) (by rw [Page.size]; omega), ok_bind, hsecond, pure_eq_ok]

omit [Crc32Fast] in
theorem getD_leafKeys {i : ℕ} (hi : i < l.entries.length) :
    (leafKeys l).getD i default = (l.entries[i]).1 := by
  rw [leafKeys, List.getD_eq_getElem?_getD, List.getElem?_map, List.getElem?_eq_getElem hi]
  rfl

theorem numRows_keyLeaf (hfits : Fits (rowsOf keyCell l)) :
    (leafPage (rowsOf keyCell l) next prev).numRows = l.entries.length := by
  rw [numRows_leafPage hfits, rowsOf, List.length_map]

/-- The search in a leaf for the place of a key that is not there. -/
theorem findIdxInsertionPoint_leafPage (hfits : Fits (rowsOf keyCell l)) (hsorted : l.Sorted)
    (hnew : key ∉ leafKeys l) :
    ∃ pos, findIdxInsertionPoint (leafPage (rowsOf keyCell l) next prev) key = .ok pos ∧
      Splits (fun i => (leafKeys l).getD i default) key 0 l.entries.length (pos, false) := by
  rw [findIdxInsertionPoint, numRows_keyLeaf hfits]
  by_cases hzero : l.entries.length = 0
  · rw [if_pos hzero, hzero]
    exact ⟨0, rfl, ⟨le_rfl, le_rfl, fun i _ hi => by omega, fun i _ hi => by omega,
      fun h => by cases h⟩⟩
  · rw [if_neg hzero]
    obtain ⟨⟨pos, found⟩, hsearch, hsplit⟩ := @bsearch_spec Fault (List UInt8) _
      (fun i => (leafKeys l).getD i default) key
      (probeEntry (leafPage (rowsOf keyCell l) next prev) key) 0 l.entries.length (Nat.zero_le _)
      (fun i _ hi => by
        rw [probeEntry, numRows_keyLeaf hfits, decodeLeafEntry_leafPage hfits hi, ok_bind,
          getD_leafKeys hi]
        dsimp only
        rw [pure_eq_ok, compare_eq])
      (fun i j _ hij hj => by
        rw [getD_leafKeys (hij.trans hj), getD_leafKeys hj]
        exact List.pairwise_iff_getElem.mp hsorted.increase i j _ hj hij)
    have hmiss : found = false := by
      by_contra hfound
      obtain ⟨hpos, heq⟩ := hsplit.hit (by simpa using hfound)
      dsimp only at hpos heq
      rw [getD_leafKeys hpos] at heq
      exact hnew (heq ▸ List.mem_map_of_mem (List.getElem_mem hpos))
    subst hmiss
    rw [hsearch, ok_bind]
    exact ⟨pos, rfl, hsplit⟩

/-- Keys at virtual positions are the keys of the grown leaf. -/
theorem extractKeyAtVirtualPos_leafPage (hfits : Fits (rowsOf keyCell l))
    (hpos : pos ≤ l.entries.length) {i : ℕ}
    (hi : i < (grownLeaf l pos (key, ())).entries.length) :
    extractKeyAtVirtualPos (leafPage (rowsOf keyCell l) next prev) l.entries.length pos key i =
      .ok ((grownLeaf l pos (key, ())).entries[i]).1 := by
  have hlen : (grownLeaf l pos (key, ())).entries.length = l.entries.length + 1 :=
    List.length_insertIdx_of_le_length hpos _
  rw [extractKeyAtVirtualPos]
  simp only [grownLeaf]
  rcases Nat.lt_trichotomy i pos with hlt | rfl | hgt
  · rw [if_neg hlt.ne, if_pos hlt, decodeLeafEntry_leafPage hfits (by omega), ok_bind,
      List.getElem_insertIdx_of_lt hlt, Option.getD_some, pure_eq_ok]
  · rw [if_pos rfl, List.getElem_insertIdx_self]
  · rw [if_neg hgt.ne', if_neg (by omega), decodeLeafEntry_leafPage hfits (by omega), ok_bind,
      List.getElem_insertIdx_of_gt hgt, Option.getD_some, pure_eq_ok]

end

/-! ## Inserting -/

/-- The keys of the left half of a split are below the part of the separator that a
branch keeps. -/
def SplitSeparates (page : Page) (pos : ℕ) (key : List UInt8) : Prop :=
  ∃ last first,
    extractKeyAtVirtualPos page page.numRows pos key ((page.numRows + 1) / 2 - 1) = .ok last ∧
    extractKeyAtVirtualPos page page.numRows pos key ((page.numRows + 1) / 2) = .ok first ∧
    last < first.take idxBranchKeyMax

/-- The leaf has to be split for the key. -/
def NeedsSplit (page : Page) (key : List UInt8) : Prop :=
  pageSize < neededSize page (2 + key.length)

section

variable {g g' : WriteGuard} {root : ℕ} {leaves pre post : List KeyLeaf} {l : KeyLeaf}
  {branches : List ℕ} {key : List UInt8} {next prev pos : ℕ}

/-- The keys of a grown leaf, on both sides of the separator. -/
theorem separated_of_splitSeparates (h : TreeOf idxBranch keyCell g root (pre ++ l :: post) branches)
    (hb : Belongs l post pos (key, ())) {mid : ℕ} (hmid : 0 < mid)
    (hlt : mid < (grownLeaf l pos (key, ())).entries.length)
    (hmideq : mid = (l.entries.length + 1) / 2)
    (hsep : SplitSeparates (leafPage (rowsOf keyCell l) next prev) pos key) :
    (∀ b ∈ (grownLeaf l pos (key, ())).entries.take mid,
        b.1 < idxBranch.norm ((grownLeaf l pos (key, ())).entries[mid]).1) ∧
      ∀ b ∈ (grownLeaf l pos (key, ())).entries.drop mid,
        idxBranch.norm ((grownLeaf l pos (key, ())).entries[mid]).1 ≤ b.1 := by
  have hmem : l ∈ pre ++ l :: post := List.mem_append_right _ List.mem_cons_self
  have hfits : Fits (rowsOf keyCell l) := h.chained.leafAt.fits
  have hinc := (hb.sorted (h.ordered.sorted l hmem)).increase
  obtain ⟨last, first, hlast, hfirst, hless⟩ := hsep
  rw [numRows_keyLeaf hfits, ← hmideq, extractKeyAtVirtualPos_leafPage hfits hb.pos_le
    (by omega)] at hlast
  rw [numRows_keyLeaf hfits, ← hmideq, extractKeyAtVirtualPos_leafPage hfits hb.pos_le hlt]
    at hfirst
  obtain rfl := Except.ok.inj hlast
  obtain rfl := Except.ok.inj hfirst
  constructor
  · intro b hb'
    obtain ⟨i, hi, rfl⟩ := List.getElem_of_mem hb'
    rw [List.length_take] at hi
    rw [List.getElem_take]
    refine lt_of_le_of_lt ?_ hless
    rcases Nat.lt_or_eq_of_le (show i ≤ mid - 1 by omega) with hlt' | rfl
    · exact (List.pairwise_iff_getElem.mp hinc i (mid - 1) (by omega) (by omega) hlt').le
    · exact le_rfl
  · intro b hb'
    exact (take_le idxBranchKeyMax _).trans (hinc.le_of_mem_drop hlt b hb')

/-- **An insertion into a leaf** that has room for it. -/
theorem wp_insertIntoLeaf_keys (h : TreeOf idxBranch keyCell g root (pre ++ l :: post) branches)
    (hle : l.fence ≤ (key : WithBot (List UInt8)))
    (hlt : ∀ q ∈ post, (key : WithBot (List UInt8)) < q.fence)
    (hnext : next = nextPage post 0) (hprev : prev = lastPage 0 pre)
    (hview : g.view l.page = .ok (leafPage (rowsOf keyCell l) next prev))
    (hnew : key ∉ leafKeys l)
    (hsplit : NeedsSplit (leafPage (rowsOf keyCell l) next prev) key → ∀ pos,
      findIdxInsertionPoint (leafPage (rowsOf keyCell l) next prev) key = .ok pos →
        SplitRoom (leafPage (rowsOf keyCell l) next prev) pos (2 + key.length) ∧
          SplitSeparates (leafPage (rowsOf keyCell l) next prev) pos key) :
    wp (IndexTreeWriter.insertIntoLeaf key l.page (leafPage (rowsOf keyCell l) next prev))
      (fun r g' => ∃ new, LeafStep idxBranch keyCell g pre post l r g' new ∧
        ∃ pos ≤ l.entries.length, contents new = l.entries.insertIdx pos (key, ()))
      (fun e g' => AllocFault e ∨ g' = g) g := by
  have hmem : l ∈ pre ++ l :: post := List.mem_append_right _ List.mem_cons_self
  have hfits : Fits (rowsOf keyCell l) := h.chained.leafAt.fits
  have hlen : (rowsOf keyCell l).length = l.entries.length := List.length_map _
  obtain ⟨pos, hfind, hpoint⟩ := @findIdxInsertionPoint_leafPage _ l key next prev hfits
    (h.ordered.sorted l hmem) hnew
  have hb : Belongs l post pos (key, ()) :=
    belongs_of_splits (e := (key, ())) hpoint rfl hle hlt
  have hpos : pos ≤ (rowsOf keyCell l).length := hlen ▸ hb.pos_le
  rw [IndexTreeWriter.insertIntoLeaf, wp_bind, wp_lift_ok hfind, ← length_encodeEntry]
  refine wp_ite (fun hsize => ?_) fun hsize => ?_
  · rw [wp_bind]
    refine (wp_insertInPlace_step (e := (key, ())) h (.refl g []) hview hnext hprev hb
      ((neededSize_leafPage hfits hpos).mp hsize)).post ?_
    rintro _ g' ⟨hstep, -⟩
    exact ⟨_, hstep, pos, hb.pos_le, List.flatMap_singleton _ _⟩
  · have hneeds : NeedsSplit (leafPage (rowsOf keyCell l) next prev) key := by
      rw [NeedsSplit, ← length_encodeEntry]
      exact Nat.lt_of_not_le hsize
    obtain ⟨hroom, hsep⟩ := hsplit hneeds pos hfind
    rw [← length_encodeEntry, splitRoom_leafPage hfits hpos, hlen] at hroom
    obtain ⟨hleft, hright⟩ := hroom
    -- an empty leaf would have had room, so there are keys on both sides of the split
    have hne : 0 < l.entries.length := by
      refine Nat.pos_of_ne_zero fun hzero => hsize ?_
      have hnil : rowsOf keyCell l = [] := List.eq_nil_of_length_eq_zero (hlen.trans hzero)
      have hpos0 : pos = 0 := by omega
      rw [neededSize_leafPage hfits hpos]
      rw [hzero, hnil, hpos0] at hright
      rw [hnil, hpos0]
      exact hright
    have hgrown : (grownLeaf l pos (key, ())).entries.length = l.entries.length + 1 :=
      List.length_insertIdx_of_le_length hb.pos_le _
    have hlt' : (l.entries.length + 1) / 2 < (grownLeaf l pos (key, ())).entries.length := by omega
    obtain ⟨hbelow, habove⟩ := separated_of_splitSeparates h hb (by omega) hlt' rfl hsep
    rw [numRows_keyLeaf hfits]
    refine (wp_splitLeaf_step (e := (key, ())) h (.refl g []) hview hnext hprev hb (by omega)
      (by omega) hleft hright (extractKeyAtVirtualPos_leafPage hfits hb.pos_le hlt') hbelow habove
      fun e he => .inl he).post ?_
    rintro r g' ⟨hstep, -⟩
    refine ⟨_, hstep, pos, hb.pos_le, ?_⟩
    show (grownLeaf l pos (key, ())).entries.take _ ++
      ((grownLeaf l pos (key, ())).entries.drop _ ++ []) = _
    rw [List.append_nil, List.take_append_drop]
    rfl

/-- The tree below `root` holds the keys of `s`. -/
def HoldsKeys (g : WriteGuard) (root : ℕ) (s : Set (List UInt8)) : Prop :=
  ∃ leaves branches, TreeOf idxBranch keyCell g root leaves branches ∧
    ∀ k, k ∈ keysIn leaves ↔ k ∈ s

/-- The leaf an insertion of `key` reaches. -/
def reachedIdxLeaf (g : WriteGuard) (root : ℕ) (key : List UInt8) : Result (ℕ × Page) :=
  descend "index B+ tree depth exceeds maximum in insert_recursive" g.view (routeKey idxBranch key)
    maxTreeDepth root

/-- No leaf rewrite of an insertion overruns its page. -/
def InsertFits (g : WriteGuard) (root : ℕ) (key : List UInt8) : Prop :=
  ∀ pageNo page pos, reachedIdxLeaf g root key = .ok (pageNo, page) → NeedsSplit page key →
    findIdxInsertionPoint page key = .ok pos → SplitRoom page pos (2 + key.length)

/-- An insertion that splits a leaf splits it where the kept part of the separator
tells the halves apart. -/
def InsertSeparates (g : WriteGuard) (root : ℕ) (key : List UInt8) : Prop :=
  ∀ pageNo page pos, reachedIdxLeaf g root key = .ok (pageNo, page) → NeedsSplit page key →
    findIdxInsertionPoint page key = .ok pos → SplitSeparates page pos key

variable {s : Set (List UInt8)}

omit [Crc32Fast] in
theorem mem_keysIn_iff : key ∈ keysIn leaves ↔ (key, ()) ∈ contents leaves := by
  rw [keysIn, List.mem_map]
  constructor
  · rintro ⟨⟨k, u⟩, hmem, rfl⟩
    exact hmem
  · intro hmem
    exact ⟨_, hmem, rfl⟩

omit [Crc32Fast] in
theorem mem_keysIn_of_leaf (hl : l ∈ leaves) (hkey : key ∈ leafKeys l) : key ∈ keysIn leaves := by
  obtain ⟨e, he, rfl⟩ := List.mem_map.mp hkey
  exact List.mem_map_of_mem (List.mem_flatMap.mpr ⟨l, hl, he⟩)

omit [Crc32Fast] in
theorem keysIn_sorted (h : Ordered leaves) : (keysIn leaves).Pairwise (· < ·) :=
  List.pairwise_map.mpr h.keysIncrease

/-- **An insertion adds its key**, on the pages of the tree and on new ones. -/
theorem wp_insert_keyTree (htree : TreeOf idxBranch keyCell g root leaves branches)
    (hmem : ∀ k, k ∈ keysIn leaves ↔ k ∈ s) (hnew : key ∉ s) (hfits : InsertFits g root key)
    (hsep : InsertSeparates g root key) :
    wp (IndexTreeWriter.insert root key) (fun root' g' => ∃ leaves' branches',
        TreeOf idxBranch keyCell g' root' leaves' branches' ∧
        (∀ k, k ∈ keysIn leaves' ↔ k ∈ insert key s) ∧
        Touches g g' (leaves.map Leaf.page ++ branches) ∧
        ∀ p ∈ leaves'.map Leaf.page ++ branches',
          p ∈ leaves.map Leaf.page ++ branches ∨ g.bound ≤ p)
      (fun e g' => AllocFault e ∨ g' = g) g := by
  obtain ⟨pre₀, l₀, post₀, heq₀, hle₀, hlt₀, -, hreached⟩ := htree.descend_key key
    "index B+ tree depth exceeds maximum in insert_recursive"
  rw [IndexTreeWriter.insert]
  refine wp.post (wp_insert_tree (P := fun l new _ =>
    ∃ pos ≤ l.entries.length, contents new = l.entries.insertIdx pos (key, ())) (by decide) htree
    ?_ (.inr rfl) fun e g' he => .inl he) ?_
  · intro pre l post next prev heq hle hlt hnext hprev hview
    obtain ⟨rfl, rfl, rfl⟩ := located_unique (heq₀.symm.trans heq) hle₀ hlt₀ hle hlt
    subst heq
    refine wp_insertIntoLeaf_keys htree hle hlt hnext hprev hview (fun hin => hnew ?_) ?_
    · exact (hmem key).mp (mem_keysIn_of_leaf (List.mem_append_right _ List.mem_cons_self) hin)
    · intro hneeds pos hfind
      subst hnext hprev
      exact ⟨hfits _ _ pos hreached hneeds hfind, hsep _ _ pos hreached hneeds hfind⟩
  · rintro root' g' ⟨pre, l, post, new, branches', g₁, rfl, htree', ⟨pos, hpos, hcontents⟩, ht, ht',
      hpages, hbranches⟩
    refine ⟨_, _, htree', fun k => ?_, (ht.mono (List.subset_append_left _ _)).trans
      (ht'.mono (List.subset_append_right _ _)), fun p hp => ?_⟩
    · have hperm := @contents_insertIdx_perm _ _ pre post new l (key, ()) pos hpos hcontents
      rw [mem_keysIn_iff, hperm.mem_iff, List.mem_cons, ← mem_keysIn_iff, hmem, Set.mem_insert_iff,
        Prod.mk.injEq, and_iff_left rfl]
    · rcases List.mem_append.mp hp with hp | hp
      · simp only [List.map_append, List.mem_append] at hp
        rcases hp with (hp | hp) | hp
        · exact .inl (by simp [hp])
        · rcases hpages p hp with rfl | ⟨hge, -⟩
          · exact .inl (by simp)
          · exact .inr hge
        · exact .inl (by simp [hp])
      · rcases hbranches p hp with hp | hge
        · exact .inl (List.mem_append_right _ hp)
        · exact .inr (ht.bound_le.trans hge)

theorem wp_insert_keys (h : HoldsKeys g root s) (hnew : key ∉ s) (hfits : InsertFits g root key)
    (hsep : InsertSeparates g root key) :
    wp (IndexTreeWriter.insert root key) (fun root' g' => HoldsKeys g' root' (insert key s))
      (fun e g' => AllocFault e ∨ g' = g) g := by
  obtain ⟨leaves, branches, htree, hmem⟩ := h
  refine (wp_insert_keyTree htree hmem hnew hfits hsep).post ?_
  rintro root' g' ⟨leaves', branches', htree', hmem', -⟩
  exact ⟨leaves', branches', htree', hmem'⟩

/-! ## Deleting -/

/-- The loop over the entries of a leaf finds the key, if it is there. -/
theorem findEntry_range' (hfits : Fits (rowsOf keyCell l)) (hsorted : l.Sorted) (m k : ℕ)
    (hlen : k + m = l.entries.length) (hbefore : ∀ i (hi : i < l.entries.length), i < k →
      (l.entries[i]).1 ≠ key) :
    (∃ pos, ∃ hpos : pos < l.entries.length, (l.entries[pos]).1 = key ∧
      findEntry (leafPage (rowsOf keyCell l) next prev) key (List.range' k m) = .ok (some pos)) ∨
    (key ∉ leafKeys l ∧
      findEntry (leafPage (rowsOf keyCell l) next prev) key (List.range' k m) = .ok none) := by
  induction m generalizing k with
  | zero =>
      refine .inr ⟨fun hin => ?_, rfl⟩
      obtain ⟨e, he, heq⟩ := List.mem_map.mp hin
      obtain ⟨i, hi, rfl⟩ := List.getElem_of_mem he
      exact hbefore i hi (by omega) heq
  | succ m ih =>
      have hk : k < l.entries.length := by omega
      rw [List.range'_succ, findEntry, numRows_keyLeaf hfits, decodeLeafEntry_leafPage hfits hk,
        ok_bind]
      dsimp only
      by_cases heq : (l.entries[k]).1 = key
      · rw [if_pos heq]
        exact .inl ⟨k, hk, heq, rfl⟩
      rw [if_neg heq]
      by_cases hgt : key < (l.entries[k]).1
      · -- no later entry is the key, because they increase
        rw [if_pos hgt]
        refine .inr ⟨fun hin => ?_, rfl⟩
        obtain ⟨e, he, rfl⟩ := List.mem_map.mp hin
        obtain ⟨i, hi, rfl⟩ := List.getElem_of_mem he
        rcases Nat.lt_trichotomy i k with hik | rfl | hki
        · exact hbefore i hi hik rfl
        · exact heq rfl
        · have hinc := List.pairwise_iff_getElem.mp hsorted.increase k i hk hi hki
          exact absurd (hinc.trans hgt) (lt_irrefl _)
      · rw [if_neg hgt]
        refine ih (k + 1) (by omega) fun i hi hik => ?_
        rcases Nat.lt_or_eq_of_le (Nat.le_of_lt_succ hik) with hlt | rfl
        · exact hbefore i hi hlt
        · exact heq

/-- **A deletion removes its key**, and says whether it was there; it writes one leaf
at most. -/
theorem wp_delete_keyTree {E : Fault → WriteGuard → Prop}
    (htree : TreeOf idxBranch keyCell g root leaves branches)
    (hmem : ∀ k, k ∈ keysIn leaves ↔ k ∈ s) :
    wp (IndexTreeWriter.delete root key) (fun found g' => (found = true ↔ key ∈ s) ∧
      ∃ leaves', TreeOf idxBranch keyCell g' root leaves' branches ∧
        (∀ k, k ∈ keysIn leaves' ↔ k ∈ s \ {key}) ∧
        Touches g g' (leaves.map Leaf.page ++ branches) ∧
        leaves'.map Leaf.page = leaves.map Leaf.page) E g := by
  obtain ⟨pre, l, post, rfl, hle, hlt, hview, hdescend⟩ := htree.descend_key key
    "index B+ tree depth exceeds maximum in delete_recursive"
  have hl : l ∈ pre ++ l :: post := List.mem_append_right _ List.mem_cons_self
  have hfits : Fits (rowsOf keyCell l) := htree.chained.leafAt.fits
  -- the key is in its leaf or nowhere
  have hleaf : key ∈ s ↔ key ∈ leafKeys l := by
    rw [← hmem, mem_keysIn_iff, htree.ordered.mem_contents_iff hle hlt, leafKeys, List.mem_map]
    constructor
    · intro hin
      exact ⟨_, hin, rfl⟩
    · rintro ⟨⟨k, u⟩, hin, rfl⟩
      exact hin
  have hmiss : key ∉ leafKeys l → (false = true ↔ key ∈ s) ∧
      ∃ leaves', TreeOf idxBranch keyCell g root leaves' branches ∧
        (∀ k, k ∈ keysIn leaves' ↔ k ∈ s \ {key}) ∧
        Touches g g ((pre ++ l :: post).map Leaf.page ++ branches) ∧
        leaves'.map Leaf.page = (pre ++ l :: post).map Leaf.page := by
    intro hnot
    have hnot' : key ∉ s := fun hin => hnot (hleaf.mp hin)
    refine ⟨by simp [hnot'], _, htree, fun k => ?_, .refl g _, rfl⟩
    rw [hmem, Set.mem_sdiff, Set.mem_singleton_iff]
    refine ⟨fun hk => ⟨hk, fun heq => hnot' (heq ▸ hk)⟩, And.left⟩
  rw [IndexTreeWriter.delete, wp_bind, wp_readOnly, hdescend]
  dsimp only
  rw [numRows_keyLeaf hfits]
  refine wp_ite (fun hzero => hmiss ?_) fun hzero => ?_
  · rw [leafKeys, List.eq_nil_of_length_eq_zero hzero]
    exact List.not_mem_nil
  rw [wp_bind, List.range_eq_range']
  rcases @findEntry_range' _ l key (nextPage post 0) (lastPage 0 pre) hfits
    (htree.ordered.sorted l hl) l.entries.length 0 (Nat.zero_add _)
    (fun i hi hlt => absurd hlt (Nat.not_lt_zero i)) with ⟨pos, hpos, heq, hfind⟩ | ⟨hnot, hfind⟩
  · rw [wp_lift_ok hfind]
    dsimp only
    rw [wp_bind]
    refine (wp_removeInPlace_tree htree hview rfl rfl hpos).post ?_
    rintro _ g' ⟨htree', ht⟩
    have hin : key ∈ s := hleaf.mpr (heq ▸ List.mem_map_of_mem (List.getElem_mem hpos))
    have hpages : (pre ++ shrunkLeaf l pos :: post).map Leaf.page =
        (pre ++ l :: post).map Leaf.page := by
      rw [List.map_append, List.map_append, List.map_cons, List.map_cons]
      rfl
    refine ⟨by simp [hin], _, htree', fun k => ?_, ht.mono (by simp), hpages⟩
    have hperm := @contents_eraseIdx_perm _ _ pre post l (shrunkLeaf l pos) pos hpos rfl
    have hnodup : (contents (pre ++ l :: post)).Nodup :=
      htree.ordered.keysIncrease.imp fun hlt heq => hlt.ne (by rw [heq])
    have hcons := List.nodup_cons.mp (hperm.nodup_iff.mp hnodup)
    have hentry : l.entries[pos] = (key, ()) := Prod.ext heq rfl
    rw [hentry] at hperm hcons
    rw [Set.mem_sdiff, Set.mem_singleton_iff, ← hmem, mem_keysIn_iff, mem_keysIn_iff, hperm.mem_iff,
      List.mem_cons, Prod.mk.injEq, and_iff_left rfl]
    constructor
    · intro hk
      exact ⟨.inr hk, fun heq => hcons.1 (heq ▸ hk)⟩
    · rintro ⟨heq | hk, hne⟩
      · exact absurd heq hne
      · exact hk
  · rw [wp_lift_ok hfind]
    exact hmiss hnot

theorem wp_delete_keys {E : Fault → WriteGuard → Prop} (h : HoldsKeys g root s) :
    wp (IndexTreeWriter.delete root key) (fun found g' => (found = true ↔ key ∈ s) ∧
      HoldsKeys g' root (s \ {key})) E g := by
  obtain ⟨leaves, branches, htree, hmem⟩ := h
  refine (wp_delete_keyTree htree hmem).post ?_
  rintro found g' ⟨hfound, leaves', htree', hmem', -⟩
  exact ⟨hfound, leaves', branches, htree', hmem'⟩

end

/-! ## Scanning -/

section

open IndexTreeReader

variable {α : Type} (pre : List UInt8) (push : α → List UInt8 → α) (full : α → Bool)

/-- The scan of a leaf, over its keys. -/
def scanKeys : List (List UInt8) → α × Bool → (α × Bool) × Bool
  | [], acc => (acc, false)
  | k :: keys, (acc, foundStart) =>
      if pre.isPrefixOf k then
        if full (push acc k) then ((push acc k, true), true)
        else scanKeys keys (push acc k, true)
      else if foundStart then ((acc, foundStart), true)
      else scanKeys keys (acc, foundStart)

/-- Take the keys until there is enough. -/
def pushAll : List (List UInt8) → α → α
  | [], acc => acc
  | k :: keys, acc => if full (push acc k) then push acc k else pushAll keys (push acc k)

variable {pre push full} {l : KeyLeaf} {leaves : List KeyLeaf} {next prev : ℕ}

theorem scanLeaf_leafPage (hfits : Fits (rowsOf keyCell l)) (acc : α × Bool) :
    scanLeaf pre push full (leafPage (rowsOf keyCell l) next prev) (List.range l.entries.length)
      acc = .ok (scanKeys pre push full (leafKeys l) acc) := by
  have hloop : ∀ (m k : ℕ) (acc : α × Bool), k + m = l.entries.length →
      scanLeaf pre push full (leafPage (rowsOf keyCell l) next prev) (List.range' k m) acc =
        .ok (scanKeys pre push full ((leafKeys l).drop k) acc) := by
    intro m
    induction m with
    | zero =>
        intro k acc hlen
        rw [List.drop_eq_nil_of_le (by rw [leafKeys, List.length_map]; omega)]
        rfl
    | succ m ih =>
        intro k acc hlen
        have hk : k < l.entries.length := by omega
        have hk' : k < (leafKeys l).length := by
          rw [leafKeys, List.length_map]
          exact hk
        have hkey : (leafKeys l)[k] = (l.entries[k]).1 := List.getElem_map _
        obtain ⟨acc, foundStart⟩ := acc
        rw [List.range'_succ, scanLeaf, numRows_keyLeaf hfits, decodeLeafEntry_leafPage hfits hk,
          ok_bind, List.drop_eq_getElem_cons hk', scanKeys, hkey]
        dsimp only
        by_cases hpre : pre.isPrefixOf (l.entries[k]).1 = true
        · rw [if_pos hpre, if_pos hpre]
          by_cases hfull : full (push acc (l.entries[k]).1) = true
          · rw [if_pos hfull, if_pos hfull, pure_eq_ok]
          · rw [if_neg hfull, if_neg hfull]
            exact ih (k + 1) _ (by omega)
        · rw [if_neg hpre, if_neg hpre]
          by_cases hfound : foundStart = true
          · rw [if_pos hfound, if_pos hfound, pure_eq_ok]
          · rw [if_neg hfound, if_neg hfound]
            exact ih (k + 1) _ (by omega)
  rw [List.range_eq_range', hloop _ 0 acc (Nat.zero_add _), List.drop_zero]

omit [Crc32Fast] in
theorem scanKeys_append (keys keys' : List (List UInt8)) (acc : α × Bool) :
    (scanKeys pre push full (keys ++ keys') acc).1 =
      if (scanKeys pre push full keys acc).2 then (scanKeys pre push full keys acc).1
      else (scanKeys pre push full keys' (scanKeys pre push full keys acc).1).1 := by
  induction keys generalizing acc with
  | nil => rfl
  | cons k keys ih =>
      obtain ⟨acc, foundStart⟩ := acc
      rw [List.cons_append, scanKeys, scanKeys]
      by_cases hpre : pre.isPrefixOf k = true
      · rw [if_pos hpre, if_pos hpre]
        by_cases hfull : full (push acc k) = true
        · rw [if_pos hfull, if_pos hfull, if_pos rfl]
        · rw [if_neg hfull, if_neg hfull, ih]
      · rw [if_neg hpre, if_neg hpre]
        by_cases hfound : foundStart = true
        · rw [if_pos hfound, if_pos hfound, if_pos rfl]
        · rw [if_neg hfound, if_neg hfound, ih]

omit [Crc32Fast] in
/-- The walk over the leaves is a scan of all their keys. -/
theorem foldLeaves_scanKeys (leaves : List KeyLeaf) (acc : α × Bool) :
    foldLeaves (fun l acc => scanKeys pre push full (leafKeys l) acc) leaves acc =
      (scanKeys pre push full (keysIn leaves) acc).1 := by
  induction leaves generalizing acc with
  | nil => rfl
  | cons l leaves ih =>
      have hkeys : keysIn (l :: leaves) = leafKeys l ++ keysIn leaves := List.map_append
      rw [foldLeaves, hkeys, scanKeys_append, ih]

omit [Crc32Fast] in
/-- **A scan of increasing keys takes those with the prefix**, in order. -/
theorem scanKeys_sorted {keys : List (List UInt8)} (hsorted : keys.Pairwise (· < ·)) (acc : α) :
    (scanKeys pre push full keys (acc, false)).1.1 =
      pushAll push full (keys.filter fun k => pre.isPrefixOf k) acc := by
  -- once the run of matching keys has begun, the first other key ends it
  have hrun : ∀ (keys : List (List UInt8)) (k₀ : List UInt8) (acc : α), pre <+: k₀ →
      (k₀ :: keys).Pairwise (· < ·) → (scanKeys pre push full keys (acc, true)).1.1 =
        pushAll push full (keys.filter fun k => pre.isPrefixOf k) acc := by
    intro keys
    induction keys with
    | nil => intro k₀ acc _ _; rfl
    | cons k keys ih =>
        intro k₀ acc hk₀ hsorted
        obtain ⟨hhead, htail⟩ := List.pairwise_cons.mp hsorted
        rw [scanKeys]
        by_cases hpre : pre.isPrefixOf k = true
        · rw [if_pos hpre, List.filter_cons_of_pos hpre, pushAll]
          by_cases hfull : full (push acc k) = true
          · rw [if_pos hfull, if_pos hfull]
          · rw [if_neg hfull, if_neg hfull]
            exact ih k _ (List.isPrefixOf_iff_prefix.mp hpre) htail
        · have hend : keys.filter (fun k => pre.isPrefixOf k) = [] := by
            refine List.filter_eq_nil_iff.mpr fun k' hk' hmatch => hpre ?_
            have hlt := (List.pairwise_cons.mp htail).1 k' hk'
            exact List.isPrefixOf_iff_prefix.mpr (prefix_of_between hk₀
              (List.isPrefixOf_iff_prefix.mp hmatch) (hhead k List.mem_cons_self).le hlt.le)
          rw [if_neg hpre, if_pos rfl, List.filter_cons_of_neg hpre, hend]
          rfl
  induction keys generalizing acc with
  | nil => rfl
  | cons k keys ih =>
      rw [scanKeys]
      by_cases hpre : pre.isPrefixOf k = true
      · rw [if_pos hpre, List.filter_cons_of_pos hpre, pushAll]
        by_cases hfull : full (push acc k) = true
        · rw [if_pos hfull, if_pos hfull]
        · rw [if_neg hfull, if_neg hfull]
          exact hrun keys k _ (List.isPrefixOf_iff_prefix.mp hpre) hsorted
      · rw [if_neg hpre, if_neg Bool.false_ne_true, List.filter_cons_of_neg hpre]
        exact ih (List.pairwise_cons.mp hsorted).2 acc

variable {file : PageFile} {root : ℕ} {branches : List ℕ} {p : List UInt8}

/-- A scan of the file takes the keys of the tree that have the prefix. -/
theorem scanWith_tree (h : TreeOf idxBranch keyCell file root leaves branches)
    (hclean : file.writeState = ⟨∅, 0⟩) (cycleError : String) (init : α) :
    scanWith cycleError push full init file root p =
      .ok (pushAll push full ((keysIn leaves).filter fun k => p.isPrefixOf k) init) := by
  obtain ⟨pre, l, post, rfl, hle, hlt, hview, hdescend⟩ := h.descend_key p
    "index B+ tree depth exceeds maximum in find_leaf_for_key"
  have hread := view_eq_readPage hclean
  have hlen := h.length_le
  rw [List.length_append, List.length_cons, WriteGuard.bound_eq_pageCount hclean] at hlen
  have hchain := (chained_append.mp h.chained).2
  have hscan : ∀ q ∈ l :: post, ∀ (next prev : ℕ) (acc : α × Bool),
      scanLeaf p push full (leafPage (rowsOf keyCell q) next prev)
        (List.range (leafPage (rowsOf keyCell q) next prev).numRows) acc =
          .ok (scanKeys p push full (leafKeys q) acc) := by
    intro q hq next prev acc
    have hfits : Fits (rowsOf keyCell q) := by
      obtain ⟨pre', post', heq⟩ := List.append_of_mem (List.mem_append_right pre hq)
      exact (heq ▸ h.chained).leafAt.fits
    rw [numRows_keyLeaf hfits]
    exact scanLeaf_leafPage hfits acc
  -- the keys of the leaves before are below the prefix
  have hbefore : (keysIn pre).filter (fun k => p.isPrefixOf k) = [] := by
    refine List.filter_eq_nil_iff.mpr fun k hk hmatch => ?_
    obtain ⟨e, he, rfl⟩ := List.mem_map.mp hk
    obtain ⟨q, hq, he⟩ := List.mem_flatMap.mp he
    have hbelow := ((List.pairwise_append.mp h.ordered.before).2.2 q hq l
      List.mem_cons_self).entries e he
    have hprefix := prefix_le (List.isPrefixOf_iff_prefix.mp hmatch)
    exact absurd (hbelow.trans_le hle) (not_lt.mpr (WithBot.coe_le_coe.mpr hprefix))
  have hkeys : keysIn (pre ++ l :: post) = keysIn pre ++ keysIn (l :: post) := by
    rw [keysIn, contents_append, List.map_append]
    rfl
  have hsorted : (keysIn (l :: post)).Pairwise (· < ·) := by
    have hall := keysIn_sorted h.ordered
    rw [hkeys] at hall
    exact (List.pairwise_append.mp hall).2.1
  rw [scanWith, findLeafForKey, ← hread, hdescend]
  dsimp only [ok_bind, pure_eq_ok]
  rw [walkLeaves_chained hchain hscan h.behind (by omega : post.length < file.pageCount), ok_bind,
    foldLeaves_scanKeys, scanKeys_sorted hsorted, hkeys, List.filter_append,
    hbefore, List.nil_append]

omit [Crc32Fast] in
theorem pushAll_append (keys acc : List (List UInt8)) :
    pushAll (fun acc k => acc ++ [k]) (fun _ => false) keys acc = acc ++ keys := by
  induction keys generalizing acc with
  | nil => exact (List.append_nil acc).symm
  | cons k keys ih => rw [pushAll, if_neg Bool.false_ne_true, ih, List.append_assoc]; rfl

omit [Crc32Fast] in
theorem pushAll_count (keys : List (List UInt8)) (count : ℕ) :
    pushAll (fun count _ => count + 1) (fun _ => false) keys count = count + keys.length := by
  induction keys generalizing count with
  | nil => rfl
  | cons k keys ih =>
      rw [pushAll, if_neg Bool.false_ne_true, ih, List.length_cons]
      omega

omit [Crc32Fast] in
theorem pushAll_limit (max : ℕ) (keys acc : List (List UInt8)) (hacc : acc.length < max) :
    pushAll (fun acc k => acc ++ [k]) (fun acc => max ≤ acc.length) keys acc =
      acc ++ keys.take (max - acc.length) := by
  induction keys generalizing acc with
  | nil => rw [List.take_nil, List.append_nil]; rfl
  | cons k keys ih =>
      have hlen : (acc ++ [k]).length = acc.length + 1 := by simp
      obtain ⟨n, hn⟩ := Nat.exists_eq_add_of_lt hacc
      have htake : (k :: keys).take (max - acc.length) = k :: keys.take n := by
        rw [show max - acc.length = n + 1 by omega, List.take_succ_cons]
      rw [pushAll, hlen, htake]
      by_cases hfull : max ≤ acc.length + 1
      · rw [if_pos (decide_eq_true hfull), show n = 0 by omega, List.take_zero]
      · rw [if_neg (by simpa using hfull), ih _ (by omega), hlen, List.append_assoc,
          show max - (acc.length + 1) = n by omega]
        rfl

end

/-! ## Runs -/

/-- The prefix scans of the file list the keys of `s`, in order and once each. -/
def ScansAs (file : PageFile) (root : ℕ) (s : Set (List UInt8)) : Prop :=
  ∀ pre : List UInt8, ∃ keys : List (List UInt8), keys.Pairwise (· < ·) ∧
    (∀ k, k ∈ keys ↔ k ∈ s ∧ pre <+: k) ∧
    IndexTreeReader.scanPrefix file root pre = .ok keys ∧
    IndexTreeReader.countPrefix file root pre = .ok keys.length ∧
    ∀ max, 1 ≤ max → IndexTreeReader.scanPrefixLimit file root pre max = .ok (keys.take max)

/-- The tree acts as the set `s` of keys: deletions say whether a key is in it, and
once it is committed the scans list it. -/
structure ActsAsKeySet (g : WriteGuard) (root : ℕ) (s : Set (List UInt8)) : Prop where
  delete : ∀ key, ∃ found g', IndexTreeWriter.delete root key g = .ok found g' ∧
    (found = true ↔ key ∈ s)
  scans : ∀ afterImages file, g.commit = .ok (afterImages, file) → ScansAs file root s

theorem HoldsKeys.scansAs {file : PageFile} {root : ℕ} {s : Set (List UInt8)}
    (h : HoldsKeys file root s) (hclean : file.writeState = ⟨∅, 0⟩) : ScansAs file root s := by
  obtain ⟨leaves, branches, htree, hmem⟩ := h
  intro pre
  refine ⟨(keysIn leaves).filter fun k => pre.isPrefixOf k, (keysIn_sorted htree.ordered).filter _,
    fun k => ?_, ?_, ?_, fun max hmax => ?_⟩
  · rw [List.mem_filter, hmem, List.isPrefixOf_iff_prefix]
  · rw [IndexTreeReader.scanPrefix, scanWith_tree htree hclean, pushAll_append, List.nil_append]
  · rw [IndexTreeReader.countPrefix, scanWith_tree htree hclean, pushAll_count, Nat.zero_add]
  · rw [IndexTreeReader.scanPrefixLimit, scanWith_tree htree hclean, pushAll_limit max _ [] hmax,
      List.nil_append]
    rfl

theorem HoldsKeys.commit {g file : WriteGuard} {root : ℕ} {s : Set (List UInt8)}
    {afterImages : List (ℕ × Page)} (h : HoldsKeys g root s)
    (hcommit : g.commit = .ok (afterImages, file)) : HoldsKeys file root s := by
  obtain ⟨leaves, branches, htree, hmem⟩ := h
  exact ⟨leaves, branches, htree.commit hcommit, hmem⟩

/-- The roots, states and key sets of an index tree that was created in `g₀`, where
new keys are inserted, keys are deleted, and no leaf rewrite overruns its page.
Insertions met the condition `separates`. -/
inductive IndexRun (separates : WriteGuard → ℕ → List UInt8 → Prop) (g₀ : WriteGuard) :
    ℕ → WriteGuard → Set (List UInt8) → Prop
  | create {root : ℕ} {g : WriteGuard} (h : IndexTreeWriter.create g₀ = .ok root g) :
      IndexRun separates g₀ root g ∅
  | insert {root root' : ℕ} {g g' : WriteGuard} {s : Set (List UInt8)} {key : List UInt8}
      (hrun : IndexRun separates g₀ root g s) (hnew : key ∉ s) (hfits : InsertFits g root key)
      (hsep : separates g root key) (h : IndexTreeWriter.insert root key g = .ok root' g') :
      IndexRun separates g₀ root' g' (insert key s)
  | delete {root : ℕ} {g g' : WriteGuard} {s : Set (List UInt8)} {key : List UInt8} {found : Bool}
      (hrun : IndexRun separates g₀ root g s)
      (h : IndexTreeWriter.delete root key g = .ok found g') :
      IndexRun separates g₀ root g' (s \ {key})
  | commit {root : ℕ} {g file : WriteGuard} {s : Set (List UInt8)} {afterImages : List (ℕ × Page)}
      (hrun : IndexRun separates g₀ root g s) (h : g.commit = .ok (afterImages, file)) :
      IndexRun separates g₀ root file s

theorem wp_create_keys {g : WriteGuard} {E : Fault → WriteGuard → Prop}
    (hE : ∀ e, AllocFault e → E e g) :
    wp IndexTreeWriter.create (fun root g' => HoldsKeys g' root ∅) E g := by
  have htree : wp createTree (fun root g' =>
      TreeOf idxBranch keyCell g' root [⟨⊥, root, []⟩] [] ∧ Touches g g' [] ∧ root = g.bound) E g :=
    wp_createTree_tree hE
  exact htree.post fun root g' ⟨htree, _⟩ => ⟨_, _, htree, fun k => by simp [keysIn, contents]⟩

/-- **In every run whose splits tell the halves apart, the tree holds its keys.** -/
theorem IndexRun.holds {g₀ g : WriteGuard} {root : ℕ} {s : Set (List UInt8)}
    (h : IndexRun InsertSeparates g₀ root g s) : HoldsKeys g root s := by
  induction h with
  | create h => exact (@wp_create_keys _ _ (fun _ _ => True) fun _ _ => trivial).ok h
  | insert _ hnew hfits hsep h ih => exact (wp_insert_keys ih hnew hfits hsep).ok h
  | delete _ h ih => exact ((@wp_delete_keys _ _ _ _ _ (fun _ _ => True) ih).ok h).2
  | commit _ h ih => exact ih.commit h

/-- **The index tree is an ordered set of byte strings**, in every run whose splits
tell the halves apart. -/
theorem index_tree_acts_as_set {g₀ g : WriteGuard} {root : ℕ} {s : Set (List UInt8)}
    (h : IndexRun InsertSeparates g₀ root g s) : ActsAsKeySet g root s where
  delete key := by
    have hdelete : wp (IndexTreeWriter.delete root key) _ (fun _ _ => False) g :=
      wp_delete_keys h.holds
    obtain ⟨found, g', hok, hfound, -⟩ := hdelete.exists_ok
    exact ⟨found, g', hok, hfound⟩
  scans afterImages file hcommit := (h.holds.commit hcommit).scansAs (commit_eq hcommit).2.1

/-- Every index tree acts as the set of its keys. -/
def IndexTreeActsAsSet : Prop :=
  ∀ (g₀ g : WriteGuard) (root : ℕ) (s : Set (List UInt8)),
    IndexRun (fun _ _ _ => True) g₀ root g s → ActsAsKeySet g root s

/-! ## A key that gets lost -/

section

variable {g : WriteGuard} {l : KeyLeaf} {key : List UInt8}

/-- A key above all others belongs at the end of its leaf. -/
theorem findIdxInsertionPoint_end {next prev : ℕ} (hfits : Fits (rowsOf keyCell l))
    (hsorted : l.Sorted) (habove : ∀ k ∈ leafKeys l, k < key) :
    findIdxInsertionPoint (leafPage (rowsOf keyCell l) next prev) key = .ok l.entries.length := by
  obtain ⟨pos, hfind, hpoint⟩ := @findIdxInsertionPoint_leafPage _ l key next prev hfits hsorted
    fun hin => lt_irrefl _ (habove key hin)
  rcases Nat.lt_or_eq_of_le hpoint.le_hi with hlt | heq
  · have hgt := hpoint.above pos le_rfl hlt
    rw [if_neg Bool.false_ne_true, getD_leafKeys hlt] at hgt
    exact absurd (habove _ (List.mem_map_of_mem (List.getElem_mem hlt))) (lt_asymm hgt)
  · rw [hfind]
    exact congrArg Except.ok heq

/-- An insertion into a tree of one leaf works on that leaf. -/
theorem wp_insert_rootKeys {Q : ℕ → WriteGuard → Prop} {E : Fault → WriteGuard → Prop}
    {rows : List (List UInt8)} {root : ℕ} (hview : g.view root = .ok (leafPage rows 0 0))
    (h : wp (IndexTreeWriter.insertIntoLeaf key root (leafPage rows 0 0))
      (fun r g' => wp (growRoot idxBranch root r) Q E g') E g) :
    wp (IndexTreeWriter.insert root key) Q E g := by
  rw [IndexTreeWriter.insert, wp_bind, show maxTreeDepth = 63 + 1 from rfl, insertRecursive, wp_bind]
  refine wp_readPage hview ?_
  rw [if_pos isLeaf_leafPage]
  exact h

/-- An empty leaf has room for a key that fits a page. -/
theorem not_needsSplit_empty {root pageNo : ℕ} {page : Page} (hfits : Fits [encodeEntry key])
    (hview : g.view root = .ok (leafPage [] 0 0))
    (hreached : reachedIdxLeaf g root key = .ok (pageNo, page)) : ¬ NeedsSplit page key := by
  obtain ⟨rfl, rfl⟩ := Prod.mk.inj (Except.ok.inj ((descend_leaf hview).symm.trans hreached))
  have hsize := (@neededSize_leafPage [] (encodeEntry key) 0 0 0 _ (by decide) le_rfl).mpr hfits
  rw [length_encodeEntry] at hsize
  exact not_lt.mpr hsize

/-- A new tree with one key. -/
theorem exists_single_key (hfits : Fits [encodeEntry key]) :
    ∃ g g', IndexTreeWriter.create (PageFile.open []) = .ok 0 g ∧
      g.view 0 = .ok (leafPage [] 0 0) ∧ IndexTreeWriter.insert 0 key g = .ok 0 g' ∧
      g'.view 0 = .ok (leafPage [encodeEntry key] 0 0) ∧ g'.bound = 1 := by
  obtain ⟨g, hcreate, hview, hbound, -⟩ := exists_created
  have hinsert : wp (IndexTreeWriter.insert 0 key) (fun root g' => root = 0 ∧
      Puts g g' 0 (leafPage [encodeEntry key] 0 0)) (fun _ _ => False) g := by
    have hfind : findIdxInsertionPoint (leafPage [] 0 0) key = .ok 0 :=
      @findIdxInsertionPoint_end _ ⟨⊥, 0, []⟩ key 0 0 (by decide) ⟨.nil, fun _ _ => bot_le⟩
        fun k hk => absurd hk List.not_mem_nil
    have hsize := (@neededSize_leafPage [] (encodeEntry key) 0 0 0 _ (by decide) le_rfl).mpr hfits
    rw [length_encodeEntry] at hsize
    refine wp_insert_rootKeys hview ?_
    rw [IndexTreeWriter.insertIntoLeaf, wp_bind, wp_lift_ok hfind, if_pos hsize, wp_bind]
    exact wp_insertInPlace hview (by decide) le_rfl hfits (by decide) (by decide)
      fun g' hputs => ⟨rfl, hputs⟩
  obtain ⟨root, g', hok, rfl, hputs⟩ := hinsert.exists_ok
  exact ⟨g, g', hcreate, hview, hok, hputs.view_self, hputs.bound.trans hbound⟩

/-- A second key that does not fit gets a leaf of its own. -/
theorem insert_second_key {key' : List UInt8} (hlt : key < key') (hfits : Fits [encodeEntry key])
    (hfits' : Fits [encodeEntry key']) (hfull : ¬ Fits [encodeEntry key, encodeEntry key'])
    (hview : g.view 0 = .ok (leafPage [encodeEntry key] 0 0)) (hbound : g.bound = 1) :
    InsertFits g 0 key' ∧ (key < key'.take idxBranchKeyMax → InsertSeparates g 0 key') ∧
    ∃ g', IndexTreeWriter.insert 0 key' g = .ok 2 g' ∧
      g'.view 2 = .ok (idxBranch.branchPage [0, 1] [key']) ∧
      g'.view 1 = .ok (leafPage [encodeEntry key'] 0 0) := by
  set l : KeyLeaf := ⟨⊥, 0, [(key, ())]⟩ with hl
  have hsorted : l.Sorted := ⟨List.pairwise_singleton _ _, fun _ _ => bot_le⟩
  have hfind : findIdxInsertionPoint (leafPage [encodeEntry key] 0 0) key' = .ok 1 :=
    @findIdxInsertionPoint_end _ l key' 0 0 hfits hsorted (by simpa [hl, leafKeys])
  have hnum : (leafPage [encodeEntry key] 0 0).numRows = 1 := numRows_leafPage hfits
  have hsize := (@neededSize_leafPage [encodeEntry key] (encodeEntry key') 0 0 1 _ hfits
    le_rfl).not.mpr hfull
  constructor
  · intro pageNo page pos hreached _ hpos
    obtain ⟨rfl, rfl⟩ := Prod.mk.inj (Except.ok.inj ((descend_leaf hview).symm.trans hreached))
    obtain rfl := Except.ok.inj (hfind.symm.trans hpos)
    rw [← length_encodeEntry, splitRoom_leafPage hfits (show 1 ≤ [encodeEntry key].length from le_rfl),
      List.length_singleton]
    exact ⟨hfits, hfits'⟩
  have hlast : extractKeyAtVirtualPos (leafPage [encodeEntry key] 0 0) 1 1 key' 0 = .ok key :=
    @extractKeyAtVirtualPos_leafPage _ l key' 0 0 1 hfits le_rfl 0 Nat.two_pos
  have hsep : extractKeyAtVirtualPos (leafPage [encodeEntry key] 0 0) 1 1 key' 1 = .ok key' := by
    rw [extractKeyAtVirtualPos, if_pos rfl]
  refine ⟨fun hkept pageNo page pos hreached _ hpos => ?_, ?_⟩
  · obtain ⟨rfl, rfl⟩ := Prod.mk.inj (Except.ok.inj ((descend_leaf hview).symm.trans hreached))
    obtain rfl := Except.ok.inj (hfind.symm.trans hpos)
    rw [SplitSeparates, hnum]
    exact ⟨key, key', hlast, hsep, hkept⟩
  have hnotFull : ∀ {n : ℕ}, n ≤ 2 → ¬ pageNoLimit ≤ n + 1 := fun hn => by
    rw [pageNoLimit]
    omega
  have hinsert : wp (IndexTreeWriter.insert 0 key') (fun root g' => root = 2 ∧
      g'.view 2 = .ok (idxBranch.branchPage [0, 1] [key']) ∧
      g'.view 1 = .ok (leafPage [encodeEntry key'] 0 0)) (fun _ _ => False) g := by
    refine wp_insert_rootKeys hview ?_
    rw [IndexTreeWriter.insertIntoLeaf, wp_bind, wp_lift_ok hfind, ← length_encodeEntry,
      if_neg hsize, hnum]
    refine wp_splitLeaf hview (by omega) hfits le_rfl (Nat.le_succ 1) hfits hfits'
      (by decide) (by decide) hsep (fun hlimit => absurd hlimit (hnotFull (by omega))) ?_
    intro g₁ g₂ g₃ halloc hputs₂ hputs₃
    have hbound₃ : g₃.bound = 2 := by
      rw [hputs₃.bound, hputs₂.bound, halloc.bound, hbound]
    rw [hbound] at hputs₃ ⊢
    refine wp_growRoot (by decide) (fun hlimit => absurd hlimit (hnotFull hbound₃.le)) ?_
    intro g₄ g₅ halloc₄ hputs₅
    rw [hbound₃] at hputs₅ ⊢
    refine ⟨rfl, hputs₅.view_self, ?_⟩
    rw [hputs₅.view_of_ne (by decide), halloc₄.view_of_ne (by omega), hputs₃.view_self]
    rfl
  obtain ⟨root, g', hok, rfl, hroot, hright⟩ := hinsert.exists_ok
  exact ⟨g', hok, hroot, hright⟩

/-- A deletion passes by a key that is not below the kept part of the separator: the
branch leads it to the leaf of the other key. -/
theorem wp_delete_lost {key' : List UInt8} {root : ℕ}
    (hne : key ≠ key') (hkept : idxBranch.norm key' ≤ key) (hfits : Fits [encodeEntry key'])
    (hroot : g.view root = .ok (idxBranch.branchPage [0, 1] [key']))
    (hright : g.view 1 = .ok (leafPage [encodeEntry key'] 0 0)) :
    wp (IndexTreeWriter.delete root key) (fun found _ => found = false) (fun _ _ => False) g := by
  have hbranch : g.view root = .ok (idxBranch.branchPage [0, 1] [idxBranch.norm key']) := by
    rw [hroot, ← idxBranch.branchPage_map_norm]
    rfl
  have hfitsBranch : idxBranch.BranchFits [0, 1] [idxBranch.norm key'] :=
    ⟨rfl, show 1 ≤ idxBranch.maxKeys by decide, by decide, fun k hk => by
      rw [List.mem_singleton.mp hk, BranchFormat.norm_norm]⟩
  have hindex : childIndex [idxBranch.norm key'] key = 1 := childIndex_singleton hkept
  have hroute : routeKey idxBranch key
      (idxBranch.branchPage [0, 1] [idxBranch.norm key']) = .ok 1 := by
    rw [routeKey_branchPage hfitsBranch]
    simp only [hindex]
    rfl
  set l : KeyLeaf := ⟨⊥, 1, [(key', ())]⟩ with hl
  have hnum : (leafPage (rowsOf keyCell l) 0 0).numRows = 1 := numRows_leafPage hfits
  rw [IndexTreeWriter.delete, wp_bind, wp_readOnly, show maxTreeDepth = 62 + 1 + 1 from rfl,
    descend_branch hbranch hroute, descend_leaf (show g.view 1 = .ok (leafPage (rowsOf keyCell l) 0 0)
      from hright)]
  dsimp only
  rw [hnum, if_neg Nat.one_ne_zero, wp_bind, List.range_eq_range']
  rcases @findEntry_range' _ l key 0 0 hfits ⟨List.pairwise_singleton _ _, fun _ _ => bot_le⟩ 1 0 rfl
    (fun i _ hi => absurd hi (Nat.not_lt_zero i)) with ⟨pos, hpos, heq, -⟩ | ⟨-, hfind⟩
  · obtain rfl : pos = 0 := Nat.lt_one_iff.mp hpos
    exact absurd heq.symm hne
  · rw [wp_lift_ok hfind]
    exact rfl

end

/-- A key of `n` bytes; the keys agree as far as they go. -/
def repeatedKey (n : ℕ) : List UInt8 := List.replicate n 97

omit [Crc32Fast] in
theorem fits_repeatedKey {n : ℕ} : Fits [encodeEntry (repeatedKey n)] ↔ n ≤ 4072 := by
  rw [Fits, usedSize, dataSize, List.map_singleton, List.sum_singleton, length_encodeEntry,
    repeatedKey, List.length_replicate]
  simp only [pageSize, checksumSize, pageHeaderSize, List.length_singleton]
  omega

end

/-- **Not every index tree acts as the set of its keys.**  Keys of 2100 and 2101
bytes go to two leaves, and 36 bytes of the second lead past the first. -/
theorem not_index_tree_acts_as_set : ¬ @IndexTreeActsAsSet crc32Ieee := by
  let := crc32Ieee
  intro h
  have hprefix : repeatedKey 2100 <+: repeatedKey 2101 := ⟨[97], List.replicate_succ'.symm⟩
  have hne : repeatedKey 2100 ≠ repeatedKey 2101 := fun heq => by
    have := congrArg List.length heq
    rw [repeatedKey, repeatedKey, List.length_replicate, List.length_replicate] at this
    omega
  have hlt : repeatedKey 2100 < repeatedKey 2101 := lt_of_le_of_ne (prefix_le hprefix) hne
  have hfits := fits_repeatedKey.mpr (show 2100 ≤ 4072 by decide)
  have hfits' := fits_repeatedKey.mpr (show 2101 ≤ 4072 by decide)
  have hfull : ¬ Fits [encodeEntry (repeatedKey 2100), encodeEntry (repeatedKey 2101)] := by
    rw [Fits, usedSize, dataSize, List.map_cons, List.map_singleton, List.sum_cons,
      List.sum_singleton, length_encodeEntry, length_encodeEntry, repeatedKey, repeatedKey,
      List.length_replicate, List.length_replicate]
    decide
  obtain ⟨g, g₁, hcreate, hview, hinsert, hview₁, hbound₁⟩ := exists_single_key hfits
  obtain ⟨hroom, -, g₂, hinsert₂, hroot, hright⟩ :=
    insert_second_key hlt hfits hfits' hfull hview₁ hbound₁
  have hrun : IndexRun (fun _ _ _ => True) (PageFile.open []) 2 g₂
      (insert (repeatedKey 2101) (insert (repeatedKey 2100) ∅)) := by
    refine .insert (.insert (.create hcreate) (Set.notMem_empty _) ?_ trivial hinsert) ?_ hroom
      trivial hinsert₂
    · exact fun _ _ _ hreached hneeds => absurd hneeds (not_needsSplit_empty hfits hview hreached)
    · simpa using hne.symm
  have hkept : idxBranch.norm (repeatedKey 2101) ≤ repeatedKey 2100 :=
    prefix_le ⟨repeatedKey 2064, by
      show (repeatedKey 2101).take 36 ++ repeatedKey 2064 = repeatedKey 2100
      rw [repeatedKey, List.take_replicate]
      exact List.replicate_append_replicate⟩
  obtain ⟨found, g₃, hok, hiff⟩ := (h _ _ _ _ hrun).delete (repeatedKey 2100)
  have hfound : found = false := (wp_delete_lost hne hkept hfits' hroot hright).ok hok
  rw [hiff.mpr (Set.mem_insert_of_mem _ (Set.mem_insert _ _))] at hfound
  exact Bool.noConfusion hfound

/-- A key of 2130 bytes; two of them differ behind their first 30 bytes. -/
def sharedKey (b : UInt8) : List UInt8 := List.replicate 30 97 ++ List.replicate 2100 b

theorem length_sharedKey (b : UInt8) : (sharedKey b).length = 2130 := by
  rw [sharedKey, List.length_append, List.length_replicate, List.length_replicate]

/-- Two long keys that begin alike, and are told apart by the separator between their leaves. -/
theorem index_tree_acts_as_set_split : letI := crc32Ieee
    ∃ g g', IndexRun InsertSeparates (PageFile.open []) 2 g
        (insert (sharedKey 99) (insert (sharedKey 98) ∅)) ∧
      IndexTreeWriter.delete 2 (sharedKey 98) g = .ok true g' ∧
      ActsAsKeySet g' 2 (insert (sharedKey 99) (insert (sharedKey 98) ∅) \ {sharedKey 98}) := by
  let := crc32Ieee
  have hkept : sharedKey 98 < (sharedKey 99).take idxBranchKeyMax := by decide +kernel
  have hlt : sharedKey 98 < sharedKey 99 := hkept.trans_le (prefix_le (List.take_prefix _ _))
  have hfits : ∀ b, Fits [encodeEntry (sharedKey b)] := by
    intro b
    rw [Fits, usedSize, dataSize, List.map_singleton, List.sum_singleton, length_encodeEntry,
      length_sharedKey, List.length_singleton]
    decide
  have hfull : ¬ Fits [encodeEntry (sharedKey 98), encodeEntry (sharedKey 99)] := by
    rw [Fits, usedSize, dataSize, List.map_cons, List.map_singleton, List.sum_cons,
      List.sum_singleton, length_encodeEntry, length_encodeEntry, length_sharedKey, length_sharedKey]
    decide
  obtain ⟨g, g₁, hcreate, hview, hinsert, hview₁, hbound₁⟩ := exists_single_key (hfits 98)
  obtain ⟨hroom, hseparates, g₂, hinsert₂, -, -⟩ :=
    insert_second_key hlt (hfits 98) (hfits 99) hfull hview₁ hbound₁
  have hneeds : ∀ pageNo page, reachedIdxLeaf g 0 (sharedKey 98) = .ok (pageNo, page) →
      ¬ NeedsSplit page (sharedKey 98) := fun _ _ => not_needsSplit_empty (hfits 98) hview
  have hone : IndexRun InsertSeparates (PageFile.open []) 0 g₁ (insert (sharedKey 98) ∅) :=
    .insert (.create hcreate) (Set.notMem_empty _)
      (fun _ _ _ hreached hsplit => absurd hsplit (hneeds _ _ hreached))
      (fun _ _ _ hreached hsplit => absurd hsplit (hneeds _ _ hreached)) hinsert
  have hrun : IndexRun InsertSeparates (PageFile.open []) 2 g₂
      (insert (sharedKey 99) (insert (sharedKey 98) ∅)) :=
    .insert hone (by simpa using hlt.ne') hroom (hseparates hkept) hinsert₂
  obtain ⟨found, g₃, hdelete, hfound⟩ := (index_tree_acts_as_set hrun).delete (sharedKey 98)
  obtain rfl : found = true := hfound.mpr (.inr (.inl rfl))
  exact ⟨g₂, g₃, hrun, hdelete, index_tree_acts_as_set (hrun.delete hdelete)⟩

end BoogyDb
