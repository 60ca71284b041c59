import BoogyDb.CheckedRuns

/-!
# Counters of rows

In every state of a run the counter of a table is the number of the rows that a scan lists
(`Reaches.rowCount`), outside a transaction and, with the change the transaction has noted,
inside one.
-/

namespace BoogyDb

open Bytes Wp WriteGuard FencedTree Ownership

/-! ## Counters -/

/-- The counter is the number of the rows: its cast to a signed number is exact, and the number
of any of the rows can be subtracted from it. -/
structure CountsRows (count : UInt64) (rows : RowList) : Prop where
  counted : count.toNat = rows.length
  cast : count.toInt64.toInt = rows.length
  less : ∀ ids : List UInt64, ids.Nodup → ids ⊆ rows.map Prod.fst →
    subtract count (UInt64.ofNat ids.length) = .ok (UInt64.ofNat (rows.length - ids.length))

section

variable {count : UInt64} {rows : RowList} {n : ℕ}

theorem CountsRows.of_lt (hcount : count.toNat = rows.length) (hlt : rows.length < 2 ^ 48) :
    CountsRows count rows := by
  have hofNat : ∀ k ≤ rows.length, (UInt64.ofNat k).toNat = k := by
    intro k hk
    exact UInt64.toNat_ofNat_of_lt' (by simp only [UInt64.size]; omega)
  refine ⟨hcount, ?_, fun ids hnodup hsub => ?_⟩
  · have heq : count = UInt64.ofNat rows.length := by rw [← hcount, UInt64.ofNat_toNat]
    rw [heq, UInt64.toInt64_ofNat', Int64.toInt_ofNat_of_lt (by omega)]
  · have hlen : ids.length ≤ rows.length := by
      have hperm := (List.subperm_of_subset hnodup hsub).length_le
      rwa [List.length_map] at hperm
    have hle : UInt64.ofNat ids.length ≤ count := by
      rw [UInt64.le_iff_toNat_le, hofNat _ hlen, hcount]
      exact hlen
    unfold subtract
    rw [if_pos hle]
    refine congrArg Except.ok (UInt64.toNat_inj.mp ?_)
    rw [UInt64.toNat_sub_of_le _ _ hle, hofNat _ hlen, hcount, hofNat _ (Nat.sub_le _ _)]

/-- There are as many rows as there are in the map. -/
theorem Counts.length_eq {m : UInt64 → Option (List UInt8)} (h : Counts m n)
    (hrep : Represents rows m) : rows.length = n := by
  obtain ⟨ids, hmem, rfl⟩ := h
  have hnodup : (rows.map Prod.fst).Nodup :=
    (List.pairwise_map.mpr hrep.increase).imp fun hlt => hlt.ne
  have hids : (rows.map Prod.fst).toFinset = ids := by
    ext id
    rw [List.mem_toFinset, hmem, List.mem_map, Option.isSome_iff_exists]
    constructor
    · rintro ⟨r, hr, rfl⟩
      exact ⟨r.2, (hrep.mem_iff r.1 r.2).mp hr⟩
    · rintro ⟨row, hrow⟩
      exact ⟨(id, row), (hrep.mem_iff id row).mpr hrow, rfl⟩
  rw [← hids, List.toFinset_card_of_nodup hnodup, List.length_map]

/-- A sum that is a small number modulo `2 ^ 64` is that number. -/
theorem toInt_add_eq {base delta : Int64} {a b : ℕ} (hbase : base.toInt = a) (ha : a < 2 ^ 48)
    (hb : b < 2 ^ 48) (hsum : (base + delta).toInt = b) : base.toInt + delta.toInt = b := by
  have hle := Int64.le_toInt delta
  have hlt := Int64.toInt_lt delta
  rw [Int64.toInt_add, hbase] at hsum
  rw [hbase]
  have hmod := Int.bmod_def (a + delta.toInt) (2 ^ 64)
  rw [hsum] at hmod
  split at hmod
  · omega
  · omega

end

section

variable [Crc32Fast] {storable : UInt64 → List UInt8 → Prop} {keyed : Prop}

/-- A tree has fewer rows than `2 ^ 48`: its leaves have page numbers. -/
theorem Holds.length_lt {g : WriteGuard} {root : ℕ} {m : UInt64 → Option (List UInt8)}
    {rows : RowList} (h : Holds g root m) (hrep : Represents rows m) : rows.length < 2 ^ 48 := by
  obtain ⟨leaves, branches, htree, hrep'⟩ := h
  rw [hrep.unique hrep', rowsIn, List.length_map, contents, List.length_flatMap]
  have hpages : leaves.length ≤ pageNoLimit := by
    have hsub : (leaves.map Leaf.page).Subperm (List.range pageNoLimit) :=
      List.subperm_of_subset (List.nodup_append.mp htree.tree.nodup).1 fun p hp =>
        List.mem_range.mpr (htree.tree.below p (List.mem_append_left _ hp)).2
    have hlen := hsub.length_le
    rwa [List.length_map, List.length_range] at hlen
  have heach : ∀ k ∈ leaves.map fun l => l.entries.length, k ≤ 2 ^ 16 - 1 := by
    intro k hk
    obtain ⟨l, hl, rfl⟩ := List.mem_map.mp hk
    obtain ⟨pre, post, rfl⟩ := List.append_of_mem hl
    have hfits := htree.tree.chained.leafAt.fits.length_lt
    rw [rowsOf, List.length_map] at hfits
    exact Nat.le_sub_one_of_lt hfits
  have hsum := List.sum_le_card_nsmul _ _ heach
  rw [List.length_map] at hsum
  calc (leaves.map fun l => l.entries.length).sum ≤ leaves.length * (2 ^ 16 - 1) := hsum
    _ ≤ 2 ^ 32 * (2 ^ 16 - 1) := Nat.mul_le_mul_right _ hpages
    _ < 2 ^ 48 := by norm_num

/-- The counter of a sound table. -/
theorem TableOk.countsRows {t : TableMeta} {M : TableModel} {g : WriteGuard} {P : Set ℕ}
    {rows : RowList} (h : TableOk storable keyed t M) (hat : TableAt t.rootPage t.indexes M g P)
    (hrep : Represents rows M.rows) : CountsRows t.rowCount rows := by
  obtain ⟨Q, hQ, -⟩ := hat.rowsTree
  exact .of_lt (h.inv.counted.length_eq hrep).symm (hQ.holds.length_lt hrep)

/-! ## Runs -/

/-- The counters of the tables are the numbers of rows that scans list, and that an unfiltered
count returns. -/
def Db.RowCountsExact (db : Db) : Prop :=
  ∀ name state, db.tables.lookup name = some state →
    ∃ rows, BTreeReader.scanAll db.file state.rootPage = .ok rows ∧
      countWith db.file state [] [] = .ok rows.length ∧ CountsRows state.rowCount rows

/-- In a transaction, the counter and the change that the transaction has noted add up to the
number of the rows it sees, and a count returns it.  A scan needs a page number that is free. -/
def InTransaction.RowCountsExact (s : InTransaction) : Prop :=
  ∀ name state, s.db.tables.lookup name = some state → s.guard.bound < pageNoLimit →
    ∃ rows, InTransaction.scanAll name state s = .ok rows s ∧
      InTransaction.countWith name [] [] s = .ok (UInt64.ofNat rows.length) s ∧
      CountsRows (s.tx.seen name state).rowCount rows ∧
      state.rowCount.toInt64.toInt +
        (((s.tx.metaDeltas.lookup name).map MetaDelta.rowCountDelta).getD 0).toInt = rows.length

theorem DbInv.rowCountsExact {db : Db} {Ms : String → TableModel}
    (h : DbInv storable keyed db Ms) : db.RowCountsExact := by
  intro name state hname
  obtain ⟨started, hok⟩ := h.ok
  obtain ⟨htable, P, hP, -⟩ := hok.table hname
  obtain ⟨Q, hQ, -⟩ := hP.rowsTree
  obtain ⟨rows, hscan, hrep⟩ := hQ.holds.scanAll h.clean
  have hcounts := htable.countsRows hP hrep
  refine ⟨rows, hscan, ?_, hcounts⟩
  rw [← hcounts.counted]
  rfl

omit [Crc32Fast] in
/-- The counter that a transaction sees. -/
theorem seen_count (tx : AcidTransaction) (name : String) (state : TableMeta) :
    (state.rowCount.toInt64 +
      ((tx.metaDeltas.lookup name).map MetaDelta.rowCountDelta).getD 0).toUInt64 =
      (tx.seen name state).rowCount := by
  unfold AcidTransaction.seen
  cases tx.metaDeltas.lookup name with
  | none =>
      rw [Option.map_none, Option.getD_none, Int64.add_zero]
      exact UInt64.toUInt64_toInt64 _
  | some delta => rfl

/-- A count without filters reads the counter. -/
theorem countWith_seen {s : InTransaction} {name : String} {state : TableMeta}
    (hname : s.db.tables.lookup name = some state) : InTransaction.countWith name [] [] s =
      .ok ((s.tx.seen name state).rowCount) s := by
  have hrun : wp (InTransaction.countWith name [] [])
      (fun n s' => n = (s.tx.seen name state).rowCount ∧ s' = s) (fun _ _ => False) s := by
    unfold InTransaction.countWith
    rw [wp_bind, wp_of_ok (tableState_ok hname), wp_get_bind, ← seen_count]
    exact ⟨rfl, rfl⟩
  obtain ⟨n, s', hx, rfl, rfl⟩ := hrun.exists_ok
  exact hx

theorem TxInv.rowCountsExact {s : InTransaction} {Ms Ms₀ : String → TableModel}
    (h : TxInv storable keyed s Ms) (h₀ : DbInv storable keyed s.db Ms₀) : s.RowCountsExact := by
  intro name state hname hbound
  obtain ⟨htable, P, hP, -⟩ := h.table hname
  obtain ⟨started₀, hok₀⟩ := h₀.ok
  obtain ⟨htable₀, P₀, hP₀, -⟩ := hok₀.table hname
  obtain ⟨Q, hQ, -⟩ := hP.rowsTree
  obtain ⟨Q₀, hQ₀, -⟩ := hP₀.rowsTree
  obtain ⟨rows, hscan, hrep⟩ := scanAllW_ok hP hbound
  obtain ⟨rows₀, -, hrep₀⟩ := hQ₀.holds.scanAll h₀.clean
  have hcounts := htable.countsRows hP hrep
  have hcounts₀ := htable₀.countsRows hP₀ hrep₀
  have hread : InTransaction.scanAll name state s = .ok rows s := by
    rw [← currentRoot_eq] at hscan
    exact withGuard_read h.clean
      (f := fun guard => BTreeWriter.scanAllW guard (s.tx.currentRoot name state)) hscan
  refine ⟨rows, hread, ?_, hcounts, ?_⟩
  · rw [countWith_seen hname, ← hcounts.counted, UInt64.ofNat_toNat]
  · rw [hcounts₀.cast]
    refine (hcounts₀.cast ▸ toInt_add_eq hcounts₀.cast (hQ₀.holds.length_lt hrep₀)
      (hQ.holds.length_lt hrep) ?_)
    rw [← hcounts.cast, ← seen_count]
    rfl

/-- **The counter of a table is the number of its rows**, in every state of a run and in every
state of a transaction that is opened there. -/
theorem Reaches.rowCount {db : Db} (hstore : ∀ id row, storable id row → Storable id row)
    (h : Reaches storable keyed db) :
    db.RowCountsExact ∧ ∀ s, TxRun storable db.beginAcid s → s.RowCountsExact := by
  obtain ⟨Ms, hinv⟩ := h.inv hstore
  refine ⟨hinv.rowCountsExact, fun s hrun => ?_⟩
  obtain ⟨hmoves, Ms', htx⟩ := TxRun.inv hinv.beginAcid hstore hrun
  have hdb : s.db = db := hmoves.db
  exact htx.rowCountsExact (hdb ▸ hinv)

/-- The counters are exact after any calls. -/
def RowCountsExactAfterCalls : Prop :=
  ∀ db calls, Db.open ⟨[], []⟩ = .ok db → (db.after calls).RowCountsExact

end

/-- The counters of two tables after a call that failed and a transaction, and in any
transaction that is opened there. -/
theorem row_count_numbers : letI := crc32Ieee
    ∃ (db : Db) (t u : TableMeta), (db.tables.lookup "t" = some t ∧ t.rowCount = 2) ∧
      (db.tables.lookup "u" = some u ∧ u.rowCount = 1) ∧ db.RowCountsExact ∧
      ∀ s, TxRun Storable db.beginAcid s → s.RowCountsExact := by
  let := crc32Ieee
  obtain ⟨db, t, u, hreaches, ⟨ht, hcount, -⟩, ⟨hu, hone, -⟩, -⟩ := numbersRun_ends
  obtain ⟨hexact, hopened⟩ := Reaches.rowCount (fun _ _ hrow => hrow) hreaches
  exact ⟨db, t, u, ⟨ht, hcount⟩, ⟨hu, hone⟩, hexact, hopened⟩

/-! ### An insertion of several rows that fails, and a deletion -/

/-- The second row of `insert_many` is too large: its first row stays in the overlay. -/
def failedInsertMany : List Call :=
  [.createTable "t" [⟨"a", .blob, true, false, none, false⟩], .setMaxRowSize 50,
    .row "t" (.insertMany [[], [("a", .blob (List.replicate 60 0))]]), .row "t" (.delete 99)]

/-- The row that was left over is in the tree, and the counter does not count it. -/
theorem not_row_counts_exact : ¬ @RowCountsExactAfterCalls crc32Ieee := by
  let := crc32Ieee
  intro h
  have hcount : ((newDb.after failedInsertMany).tables.lookup "t").map TableMeta.rowCount =
      some 0 := by
    decide +kernel
  have hscan : ((newDb.after failedInsertMany).tables.lookup "t").map (fun state =>
      (BTreeReader.scanAll (newDb.after failedInsertMany).file state.rootPage).toOption.map
        List.length) = some (some 1) := by
    decide +kernel
  obtain ⟨state, hstate, hzero⟩ := Option.map_eq_some_iff.mp hcount
  obtain ⟨rows, hrows, -, hcounts⟩ := h newDb failedInsertMany open_new "t" state hstate
  rw [hstate, Option.map_some, hrows] at hscan
  have hone : rows.length = 1 := Option.some.inj (Option.some.inj hscan)
  have hcounted := hcounts.counted
  rw [hzero, hone] at hcounted
  cases hcounted

end BoogyDb
