import BoogyDb.CheckedRuns

/-!
# The tables of a database that was reached

Between two steps of a run, each tree of a table has its own pages.  What is read of a table
depends on the pages of the table alone, which no other table has (`Reaches.pages_apart`).  A
scan of an index lists the keys of the rows that a scan of the table lists
(`Reaches.index_keys`).
-/

namespace BoogyDb

open Bytes Wp WriteGuard FencedTree Ownership

section

variable [Crc32Fast] {storable : UInt64 → List UInt8 → Prop} {keyed : Prop} {db : Db}
  {file : PageFile} {root : ℕ} {M M' : TableModel} {P P' : Set ℕ} {state : TableMeta}

/-! ## Reading a table -/

/-- What can be read of a table: its rows, by their ids and all together, and the keys of its
indexes. -/
structure ReadsSame (file file' : PageFile) (state : TableMeta) : Prop where
  search : ∀ id, BTreeReader.search file' state.rootPage id = BTreeReader.search file state.rootPage id
  scanAll : BTreeReader.scanAll file' state.rootPage = BTreeReader.scanAll file state.rootPage
  scanPrefix : ∀ idx ∈ state.indexes, ∀ pre,
    IndexTreeReader.scanPrefix file' idx.rootPage pre = IndexTreeReader.scanPrefix file idx.rootPage pre

/-- Two files that hold the same of a table are read alike. -/
theorem TableAt.readsSame {file' : PageFile}
    (h : TableAt state.rootPage state.indexes M file P)
    (h' : TableAt state.rootPage state.indexes M file' P')
    (hclean : file.writeState = ⟨∅, 0⟩) (hclean' : file'.writeState = ⟨∅, 0⟩) :
    ReadsSame file file' state := by
  obtain ⟨Q, hQ, -⟩ := h.rowsTree
  obtain ⟨Q', hQ', -⟩ := h'.rowsTree
  refine ⟨fun id => ?_, ?_, fun idx hidx pre => ?_⟩
  · rw [hQ.holds.search hclean, hQ'.holds.search hclean']
  · obtain ⟨rows, hrows, hrep⟩ := hQ.holds.scanAll hclean
    obtain ⟨rows', hrows', hrep'⟩ := hQ'.holds.scanAll hclean'
    rw [hrows, hrows', hrep.unique hrep']
  · obtain ⟨i, hi⟩ := List.mem_iff_getElem?.mp hidx
    obtain ⟨R, hR, -⟩ := h.indexTree hi
    obtain ⟨R', hR', -⟩ := h'.indexTree hi
    obtain ⟨keys, hsorted, hmem, hscan, -⟩ := hR.holds.scansAs hclean pre
    obtain ⟨keys', hsorted', hmem', hscan', -⟩ := hR'.holds.scansAs hclean' pre
    rw [hscan, hscan', hsorted.eq_of_mem_iff hsorted' fun k => (hmem k).trans (hmem' k).symm]

/-! ## Pages -/

/-- The tables have pages of their own, other than page 0, and what is read of a table is read
again wherever its pages are. -/
structure PagesApart (db : Db) (pages : String → Set ℕ) : Prop where
  disjoint : ∀ a b, a ≠ b → Disjoint (pages a) (pages b)
  inFile : ∀ name, ∀ p ∈ pages name, 0 < p ∧ p < db.file.pageCount
  reads : ∀ name state, db.tables.lookup name = some state →
    ∀ file : PageFile, file.writeState = ⟨∅, 0⟩ → db.file.pageCount ≤ file.pageCount →
      (∀ p ∈ pages name, file.readPage p = db.file.readPage p) → ReadsSame db.file file state

theorem DbInv.pagesApart {Ms : String → TableModel} (h : DbInv storable keyed db Ms) :
    ∃ pages, PagesApart db pages := by
  obtain ⟨started, hok⟩ := h.ok
  obtain ⟨Q, P, hP, -⟩ := hok.owned
  have hbound : bound db.file = db.file.pageCount := bound_eq_pageCount h.clean
  refine ⟨fun name => P (some name), fun a b hne => ?_, fun name p hp => ?_,
    fun name state hname file hclean hle hpages => ?_⟩
  · exact hP.disjoint _ _ fun heq => hne (Option.some.inj heq)
  · have hlt : p < bound db.file := Local.below (hP.owns (some name)) p hp
    refine ⟨?_, hbound ▸ hlt⟩
    have howns := hP.owns (some name)
    cases hname : db.tables.lookup name with
    | none =>
        rw [owners, hname] at howns
        have hempty : P (some name) = ∅ := howns
        rw [hempty] at hp
        exact hp.elim
    | some state =>
        obtain rfl := hok.isStarted hname
        have hsystem := hP.owns none
        rw [owners, if_pos rfl] at hsystem
        by_contra hzero
        obtain rfl : p = 0 := Nat.eq_zero_of_not_pos hzero
        exact Set.disjoint_left.mp (hP.disjoint none (some name) nofun)
          (hsystem.1 ▸ Set.mem_singleton 0) hp
  · have hat := hP.owns (some name)
    rw [owners, hname] at hat
    have hat' : TableAt state.rootPage state.indexes (Ms name) file (P (some name)) := by
      refine @Local.stable WriteGuard Page _ (TableAt state.rootPage state.indexes (Ms name)) _
        db.file file _ hat (fun p hp page hview => ?_) ?_
      · rw [view_eq_some, view_eq_readPage hclean, hpages p hp, ← view_eq_readPage h.clean,
          ← view_eq_some]
        exact hview
      · show bound db.file ≤ bound file
        rw [hbound, bound_eq_pageCount hclean]
        exact hle
    exact TableAt.readsSame hat hat' h.clean hclean

/-- **The tables have pages of their own**, in every state of a run. -/
theorem Reaches.pages_apart (hstore : ∀ id row, storable id row → Storable id row)
    (h : Reaches storable keyed db) : ∃ pages, PagesApart db pages := by
  obtain ⟨Ms, hinv⟩ := h.inv hstore
  exact hinv.pagesApart

omit [Crc32Fast] in
/-- The pages of two tables, one of which has an index. -/
theorem pages_apart_numbers : letI := crc32Ieee
    ∃ (db : Db) (t u : TableMeta) (pages : String → Set ℕ),
      (db.tables.lookup "t" = some t ∧ t.rowCount = 2 ∧
        t.indexes.map IndexMeta.columns = [["n"]]) ∧
      (db.tables.lookup "u" = some u ∧ u.rowCount = 1) ∧ PagesApart db pages := by
  let := crc32Ieee
  obtain ⟨db, t, u, hreaches, ⟨ht, hcount, -, hindexes, -⟩, ⟨hu, hone, -⟩, -⟩ := numbersRun_ends
  obtain ⟨pages, hpages⟩ := Reaches.pages_apart (fun _ _ hrow => hrow) hreaches
  exact ⟨db, t, u, pages, ⟨ht, hcount, hindexes⟩, ⟨hu, hone⟩, hpages⟩

/-! ## Indexes -/

/-- The key that a row has in an index. -/
def HasKey (state : TableMeta) (idx : IndexMeta) (r : UInt64 × List UInt8) (k : List UInt8) : Prop :=
  indexKey state idx.columns r.1 r.2 = .ok (some k)

/-- The indexes of a sound table hold the keys of its rows. -/
theorem DbInv.scansKeys {Ms : String → TableModel} (h : DbInv storable True db Ms) {name : String}
    (hname : db.tables.lookup name = some state) {rows : RowList}
    (hrep : Represents rows (Ms name).rows) :
    ∀ idx ∈ state.indexes, ScansAs db.file idx.rootPage {k | ∃ r ∈ rows, HasKey state idx r k} := by
  obtain ⟨started, hok⟩ := h.ok
  obtain ⟨htable, P, hP, -⟩ := hok.table hname
  intro idx hidx
  obtain ⟨i, hi⟩ := List.mem_iff_getElem?.mp hidx
  obtain ⟨R, hR, -⟩ := hP.indexTree hi
  have hkeys : (Ms name).keys i = {k | ∃ r ∈ rows, HasKey state idx r k} := by
    ext k
    rw [htable.indexed trivial i idx hi k]
    constructor
    · rintro ⟨id, row, hrow, hkey⟩
      exact ⟨(id, row), (hrep.mem_iff id row).mpr hrow, hkey⟩
    · rintro ⟨r, hr, hkey⟩
      exact ⟨r.1, r.2, (hrep.mem_iff r.1 r.2).mp hr, hkey⟩
  rw [← hkeys]
  exact hR.holds.scansAs h.clean

/-- **A scan of an index lists the keys of the rows**, in every state of a run in which no column
of an index gets another type by a rename: those that start with the prefix, in their order and
each once; counting them and the first of them agree with the list. -/
theorem Reaches.index_keys (hstore : ∀ id row, storable id row → Storable id row)
    (h : Reaches storable True db) {name : String} (hname : db.tables.lookup name = some state) :
    ∃ rows, BTreeReader.scanAll db.file state.rootPage = .ok rows ∧
      rows.Pairwise (fun r r' => r.1 < r'.1) ∧
      ∀ idx ∈ state.indexes, ScansAs db.file idx.rootPage {k | ∃ r ∈ rows, HasKey state idx r k} := by
  obtain ⟨Ms, hinv⟩ := h.inv hstore
  obtain ⟨started, hok⟩ := hinv.ok
  obtain ⟨-, P, hP, -⟩ := hok.table hname
  obtain ⟨Q, hQ, -⟩ := hP.rowsTree
  obtain ⟨rows, hrows, hrep⟩ := hQ.holds.scanAll hinv.clean
  exact ⟨rows, hrows, hrep.increase, hinv.scansKeys hname hrep⟩

end

/-- The keys of an index with two rows. -/
theorem index_keys_numbers : letI := crc32Ieee
    ∃ (db : Db) (t : TableMeta) (idx : IndexMeta), db.tables.lookup "t" = some t ∧
      t.indexes = [idx] ∧ BTreeReader.scanAll db.file t.rootPage = .ok storedNumbers ∧
      ScansAs db.file idx.rootPage {k | ∃ r ∈ storedNumbers, HasKey t idx r k} := by
  let := crc32Ieee
  obtain ⟨db, t, -, hreaches, ⟨ht, -, -, hindexes, hscan⟩, -, -⟩ := numbersRun_ends
  obtain ⟨idx, hidx, -⟩ := List.map_eq_singleton_iff.mp hindexes
  obtain ⟨rows, hrows, -, hkeys⟩ := Reaches.index_keys (fun _ _ hrow => hrow) hreaches ht
  obtain rfl := Except.ok.inj (hscan.symm.trans hrows)
  exact ⟨db, t, idx, ht, hidx, hscan, hkeys idx (by rw [hidx]; exact List.mem_singleton_self idx)⟩

end BoogyDb
