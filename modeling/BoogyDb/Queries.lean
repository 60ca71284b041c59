import BoogyDb.FindRows
import BoogyDb.RowCounts
import BoogyDb.TableContents
import BoogyDb.VectorDb

/-!
# What a query answers

A query is answered in many ways, and a scan stops early where it can.  What it is for is said
once (`queryAnswer`): the rows that pass the whole predicate, in the order of their ids, sorted and
cut to a page.

* A transaction answers so from the rows that it sees (`AnswersWithin`).
* The database answers so where the predicate is evaluated by a scan (`Scans`), and the pages of
  a query tile its answer (`Answers`).
* Behind a commit the database answers as the transaction did (`Reaches.queries`).
-/

namespace BoogyDb

open Wp WriteGuard FencedTree Ownership StopLoop

/-! ## The answer -/

section

variable (state : TableMeta) (filters : List Filter) (orGroups : List (List Filter))
  (rows : RowList)

/-- The rows that pass the predicate. -/
def matching : Result RowList :=
  rows.filterM fun r => rowPasses state.colNameToId state.colDefs r.2 filters orGroups

/-- A row as it is returned. -/
def rowRecord (r : UInt64 × List UInt8) : Row := ⟨r.1, r.2⟩

/-- The rows that pass the predicate, in the order that the query asks for. -/
def sortedMatches (sort : List SortKey) : Result (List Row) := do
  let passing ← matching state filters orGroups rows
  sortRows state.colNames state.colDefs sort (passing.map rowRecord)

/-- What a query is for. -/
def queryAnswer (opts : FindOptions) : Result FindResult := do
  let passing ← matching state opts.filters opts.orGroups rows
  let sorted ← sortRows state.colNames state.colDefs opts.sort (passing.map rowRecord)
  pure ⟨opts.page sorted, if opts.includeTotal then some passing.length else none⟩

/-- The predicate is evaluated by a scan: no index is asked, and no filter is evaluated on raw
cells. -/
structure Scans : Prop where
  noIndex : orGroups = [] → ∀ f ∈ filters, f.op = .eq ∨ f.op = .isIn →
    state.findIndexForColumn f.column = none
  noRaw : orGroups = [] → ∀ f, filters = [f] → f.op = .isIn ∨ f.column = autoIdCol

end

/-- The query for the `i`-th page of `size` rows. -/
def FindOptions.pageAt (opts : FindOptions) (size : UInt32) (i : ℕ) : FindOptions :=
  { opts with limit := some size, offset := some (UInt32.ofNat (i * size.toNat)) }

/-! ## The database -/

/-- The database answers from these rows. -/
structure Answers [Crc32Fast] (db : Db) (table : String) (state : TableMeta) (rows : RowList) :
    Prop where
  find : ∀ (opts : FindOptions) res, Scans state opts.filters opts.orGroups →
    queryAnswer state rows opts = .ok res →
    db.find table opts = .ok res
  count : ∀ filters orGroups passing, Scans state filters orGroups →
    matching state filters orGroups rows = .ok passing →
    db.countWith table filters orGroups = .ok passing.length
  pages : ∀ (opts : FindOptions) (size : UInt32) n all, Scans state opts.filters opts.orGroups →
    sortedMatches state opts.filters opts.orGroups rows opts.sort = .ok all →
    all.length ≤ n * size.toNat → n * size.toNat ≤ 2 ^ 32 →
    ∃ pages, (List.range n).mapM (fun i => do
      let r ← db.find table (opts.pageAt size i)
      pure r.rows) = .ok pages ∧ pages.flatten = all

/-- The transaction answers from these rows, and stays as it is. -/
structure AnswersWithin [Crc32Fast] (s : InTransaction) (table : String) (state : TableMeta)
    (rows : RowList) : Prop where
  find : ∀ opts res, queryAnswer state rows opts = .ok res →
    InTransaction.find table opts s = .ok res s
  count : ∀ filters orGroups passing, matching state filters orGroups rows = .ok passing →
    InTransaction.countWith table filters orGroups s = .ok (UInt64.ofNat passing.length) s

section

variable {state state' : TableMeta} {filters : List Filter} {orGroups : List (List Filter)}
  {rows : RowList} {opts : FindOptions} {res : FindResult}

/-! ## Rows that pass -/

theorem matching_eq_ok {passing : RowList}
    (h : matching state filters orGroups rows = .ok passing) :
    (∀ r ∈ rows, ∃ b, rowPasses state.colNameToId state.colDefs r.2 filters orGroups = .ok b) ∧
      passing = rows.filter fun r =>
        passes (rowPasses state.colNameToId state.colDefs r.2 filters orGroups) :=
  filterM_eq_ok_iff.mp h

/-- Every row passes the empty predicate. -/
theorem matching_all : matching state [] [] rows = .ok rows := by
  have htest : ∀ r ∈ rows, rowPasses state.colNameToId state.colDefs r.2 [] [] = .ok true :=
    fun r _ => rfl
  rw [matching, filterM_ok fun r hr => ⟨true, htest r hr⟩]
  congr 1
  exact List.filter_eq_self.mpr fun r hr => by rw [htest r hr]; rfl

/-- The rows say the ids that they are kept under. -/
def KeptUnder (rows : RowList) : Prop := ∀ r ∈ rows, extractId r.2 = .ok r.1

theorem fromRaw_record {r : UInt64 × List UInt8} (hid : extractId r.2 = .ok r.1) :
    Row.fromRaw r.2 = .ok (rowRecord r) := by
  rw [Row.fromRaw, hid]
  rfl

theorem KeptUnder.fromRaw (h : KeptUnder rows) :
    rows.mapM (fun r => Row.fromRaw r.2) = .ok (rows.map rowRecord) := by
  rw [Except.mapM_eq_ok_iff, List.forall₂_map_right_iff, List.forall₂_same]
  exact fun r hr => fromRaw_record (h r hr)

theorem KeptUnder.unwrap_fromRaw (h : KeptUnder rows) :
    rows.mapM (fun r => unwrap (Row.fromRaw r.2)) = .ok (rows.map rowRecord) := by
  rw [Except.mapM_eq_ok_iff, List.forall₂_map_right_iff, List.forall₂_same]
  intro r hr
  rw [fromRaw_record (h r hr)]
  rfl

theorem KeptUnder.sublist {rows' : RowList} (h : KeptUnder rows) (hsub : rows'.Sublist rows) :
    KeptUnder rows' := fun r hr => h r (hsub.subset hr)

/-! ## Stopping early -/

/-- What a scan that may stop has collected. -/
def FindOptions.cut {α : Type} (opts : FindOptions) (l : List α) : List α :=
  match opts.stopAfter with
  | none => l
  | some n => l.take n

/-- A scan stops early only if nothing is sorted or counted. -/
theorem FindOptions.stopAfter_eq_some {n : ℕ} (h : opts.stopAfter = some n) :
    opts.sort = [] ∧ opts.includeTotal = false ∧ n = opts.skip + opts.take := by
  unfold stopAfter at h
  by_cases hshort : opts.canShortCircuit = true
  · rw [if_pos hshort] at h
    obtain ⟨l, hlimit, rfl⟩ := Option.map_eq_some_iff.mp h
    rw [canShortCircuit, Bool.and_eq_true, List.isEmpty_iff, Bool.not_eq_true'] at hshort
    refine ⟨hshort.1, hshort.2, ?_⟩
    rw [take, hlimit]
    rfl
  · rw [if_neg hshort] at h
    cases h

/-- Rows that were collected are sorted and cut to a page. -/
def finish (state : TableMeta) (opts : FindOptions) (found : List Row) : Result FindResult := do
  let sorted ← sortRows state.colNames state.colDefs opts.sort found
  pure ⟨opts.page sorted, if opts.includeTotal then some found.length else none⟩

theorem answer_eq_ok (h : queryAnswer state rows opts = .ok res) :
    ∃ passing, matching state opts.filters opts.orGroups rows = .ok passing ∧
      finish state opts (passing.map rowRecord) = .ok res := by
  obtain ⟨passing, hpassing, hres⟩ := bind_eq_ok.mp h
  refine ⟨passing, hpassing, ?_⟩
  rw [finish, List.length_map]
  exact hres

/-- **Stopping early is not seen** in the page that is returned, nor in the total. -/
theorem finish_cut (found : List Row) :
    finish state opts (opts.cut found) = finish state opts found := by
  unfold FindOptions.cut finish
  cases hstop : opts.stopAfter with
  | none => rfl
  | some n =>
      obtain ⟨hsort, htotal, rfl⟩ := FindOptions.stopAfter_eq_some hstop
      rw [hsort, htotal]
      have hpage : ∀ l : List Row, opts.page (l.take (opts.skip + opts.take)) = opts.page l := by
        intro l
        unfold FindOptions.page
        rw [List.drop_take, Nat.add_sub_cancel_left, List.take_take, min_self]
      exact congrArg (fun rows => Except.ok (⟨rows, none⟩ : FindResult)) (hpage found)

theorem map_cut {α β : Type} (f : α → β) (l : List α) :
    (opts.cut l).map f = opts.cut (l.map f) := by
  unfold FindOptions.cut
  cases opts.stopAfter with
  | none => rfl
  | some n => exact List.map_take

end
/-! ## Queries of the database -/

section

variable [Crc32Fast] {file : PageFile} {db : Db} {table : String} {state : TableMeta}
  {filters : List Filter} {orGroups : List (List Filter)} {rows : RowList} {opts : FindOptions}
  {res : FindResult}

/-- What the scans of a table read. -/
structure Lists (file : PageFile) (state : TableMeta) (rows : RowList) : Prop where
  ids : KeptUnder rows
  scanAll : BTreeReader.scanAll file state.rootPage = .ok rows
  scanMatching : ∀ (keep : List UInt8 → Result Bool) (cap : Option ℕ),
    (∀ r ∈ rows, ∃ b, keep r.2 = .ok b) →
      BTreeReader.scanAllMatching file state.rootPage keep cap = .ok (
        match cap with
        | none => rows.filter fun r => passes (keep r.2)
        | some n => (rows.filter fun r => passes (keep r.2)).take n)
  counted : state.rowCount.toNat = rows.length

omit [Crc32Fast] in
theorem Scans.indexCandidate (h : Scans state opts.filters opts.orGroups) :
    indexCandidate state opts = none := by
  unfold BoogyDb.indexCandidate
  by_cases hgroups : opts.orGroups.isEmpty = true
  · rw [if_pos hgroups]
    apply List.find?_eq_none.mpr
    intro f hf hindexed
    simp only [Bool.and_eq_true, Bool.or_eq_true, decide_eq_true_eq] at hindexed
    rw [h.noIndex (List.isEmpty_iff.mp hgroups) f hf hindexed.1] at hindexed
    exact absurd hindexed.2 (by simp)
  · rw [if_neg hgroups]

/-- A query with a predicate is answered by a predicate scan. -/
theorem Scans.collectMatching (h : Scans state opts.filters opts.orGroups)
    (hsome : ¬ (opts.orGroups = [] ∧ opts.filters = [])) :
    collectMatching file state opts = findByScan file state opts := by
  unfold BoogyDb.collectMatching
  rw [h.indexCandidate]
  dsimp only
  cases hgroups : opts.orGroups with
  | cons group groups => rfl
  | nil =>
      cases hfilters : opts.filters with
      | nil => exact absurd ⟨hgroups, hfilters⟩ hsome
      | cons f fs =>
          cases fs with
          | cons f' fs => rfl
          | nil =>
              have hraw := h.noRaw hgroups f hfilters
              dsimp only
              rw [if_neg (by tauto)]

/-- What is collected without pagination is finished. -/
theorem find_of_collected {found : List Row}
    (h : collectMatching file state opts = .ok ⟨found, found.length, false⟩) :
    find file state opts = finish state opts found := by
  rw [BoogyDb.find, h, ok_bind, finish]
  simp only [Bool.and_false]
  rfl

/-- **A query that is answered by a scan.** -/
theorem Lists.find (h : Lists file state rows) (hscans : Scans state opts.filters opts.orGroups)
    (hans : queryAnswer state rows opts = .ok res) : find file state opts = .ok res := by
  obtain ⟨passing, hpassing, hres⟩ := answer_eq_ok hans
  by_cases hempty : opts.orGroups = [] ∧ opts.filters = []
  · -- all rows, none of which is left out
    have hall : passing = rows := by
      rw [hempty.1, hempty.2, matching_all] at hpassing
      exact (Except.ok.inj hpassing).symm
    have hcollect : BoogyDb.collectMatching file state opts = findAll file state := by
      unfold BoogyDb.collectMatching
      rw [hscans.indexCandidate, hempty.1, hempty.2]
    rw [hall] at hres
    rw [find_of_collected, hres]
    rw [hcollect, findAll, h.scanAll, ok_bind, h.ids.unwrap_fromRaw]
    rfl
  · obtain ⟨htests, rfl⟩ := matching_eq_ok hpassing
    have hscan := h.scanMatching (fun bytes => rowPasses state.colNameToId state.colDefs bytes
      opts.filters opts.orGroups) opts.stopAfter htests
    set passing := rows.filter fun r => passes (rowPasses state.colNameToId state.colDefs r.2
      opts.filters opts.orGroups) with hpass
    have hsub : (opts.cut passing).Sublist rows := by
      have hfilter : passing.Sublist rows := List.filter_sublist
      unfold FindOptions.cut
      cases opts.stopAfter with
      | none => exact hfilter
      | some n => exact (List.take_sublist n passing).trans hfilter
    have hraw : BTreeReader.scanAllMatching file state.rootPage (fun bytes =>
        rowPasses state.colNameToId state.colDefs bytes opts.filters opts.orGroups)
        opts.stopAfter = .ok (opts.cut passing) := by
      rw [hscan]
      unfold FindOptions.cut
      cases opts.stopAfter <;> rfl
    have hcollect : BoogyDb.collectMatching file state opts =
        .ok ⟨opts.cut (passing.map rowRecord), (opts.cut (passing.map rowRecord)).length, false⟩ := by
      rw [hscans.collectMatching hempty, findByScan, hraw, ok_bind, (h.ids.sublist hsub).fromRaw,
        ← map_cut]
      rfl
    rw [find_of_collected hcollect, finish_cut, hres]

/-- **A count that is made by a scan**, or read from the counter. -/
theorem Lists.count (h : Lists file state rows) (hscans : Scans state filters orGroups)
    {passing : RowList} (hpassing : matching state filters orGroups rows = .ok passing) :
    countWith file state filters orGroups = .ok passing.length := by
  have hscan : countByScan file state filters orGroups = .ok passing.length := by
    rw [countByScan, h.scanAll, ok_bind]
    change (matching state filters orGroups rows >>= _) = _
    rw [hpassing, ok_bind]
    rfl
  unfold BoogyDb.countWith
  cases orGroups with
  | cons group groups => exact hscan
  | nil =>
      cases filters with
      | nil =>
          rw [matching_all] at hpassing
          rw [← Except.ok.inj hpassing, ← h.counted]
          rfl
      | cons f fs =>
          cases fs with
          | cons f' fs => exact hscan
          | nil =>
              have hindex : countByIndex file state f = none := by
                unfold countByIndex
                by_cases hop : f.op = .eq
                · rw [if_pos hop, hscans.noIndex rfl f List.mem_cons_self (.inl hop)]
                  rfl
                · rw [if_neg hop]
              have hraw : countByFilter file state f = none := by
                have hraw := hscans.noRaw rfl f rfl
                rw [countByFilter, if_neg (by tauto)]
              dsimp only
              rw [hindex, hraw]
              exact hscan

omit [Crc32Fast] in
/-- The page of a query is cut from its sorted rows. -/
theorem answer_page {all : List Row} (hall : sortedMatches state opts.filters opts.orGroups rows
    opts.sort = .ok all) : ∃ total, queryAnswer state rows opts = .ok ⟨opts.page all, total⟩ := by
  obtain ⟨passing, hpassing, hsorted⟩ := bind_eq_ok.mp hall
  refine ⟨if opts.includeTotal then some passing.length else none, ?_⟩
  rw [queryAnswer, hpassing, ok_bind, hsorted]
  rfl

omit [Crc32Fast] in
/-- A list is put together from its pages. -/
theorem flatten_pages {α : Type} (l : List α) (size n : ℕ) (hlen : l.length ≤ n * size) :
    ((List.range n).map fun i => (l.drop (i * size)).take size).flatten = l := by
  induction n generalizing l with
  | zero =>
      rw [Nat.zero_mul, Nat.le_zero, List.length_eq_zero_iff] at hlen
      rw [hlen]
      rfl
  | succ n ih =>
      rw [List.range_succ_eq_map, List.map_cons, List.flatten_cons, List.map_map]
      have hrest := ih (l.drop size) (by
        rw [List.length_drop]
        have hsucc : (n + 1) * size = n * size + size := Nat.succ_mul n size
        omega)
      have hpages : ((List.range n).map ((fun i => (l.drop (i * size)).take size) ∘ Nat.succ)) =
          (List.range n).map fun i => ((l.drop size).drop (i * size)).take size := by
        apply List.map_congr_left
        intro i _
        rw [Function.comp_apply, List.drop_drop, Nat.succ_mul, Nat.add_comm]
      rw [hpages, hrest, Nat.zero_mul, List.drop_zero, List.take_append_drop]

/-- **The database answers from the rows that its scans list.** -/
theorem Lists.answers (h : Lists db.file state rows) (hname : db.tables.lookup table = some state) :
    Answers db table state rows := by
  have hfind : ∀ (opts : FindOptions) res, Scans state opts.filters opts.orGroups →
      queryAnswer state rows opts = .ok res → db.find table opts = .ok res := by
    intro opts res hscans hans
    rw [Db.find, Db.tableState, hname]
    exact h.find hscans hans
  refine ⟨hfind, fun filters orGroups passing hscans hpassing => ?_, ?_⟩
  · rw [Db.countWith, Db.tableState, hname]
    exact h.count hscans hpassing
  · intro opts size n all hscans hall hlen hbound
    refine ⟨(List.range n).map fun i => (all.drop (i * size.toNat)).take size.toNat, ?_,
      flatten_pages all size.toNat n hlen⟩
    rw [Except.mapM_eq_ok_iff, List.forall₂_map_right_iff, List.forall₂_same]
    intro i hi
    obtain ⟨total, hans⟩ := @answer_page state rows (opts.pageAt size i) all hall
    have hoffset : i * size.toNat < 2 ^ 32 ∨ size.toNat = 0 := by
      by_cases hsize : size.toNat = 0
      · exact .inr hsize
      · have hlt := Nat.mul_lt_mul_of_pos_right (List.mem_range.mp hi) (Nat.pos_of_ne_zero hsize)
        exact .inl (hlt.trans_le hbound)
    have hpage : (opts.pageAt size i).page all = (all.drop (i * size.toNat)).take size.toNat := by
      show (all.drop (UInt32.ofNat (i * size.toNat)).toNat).take size.toNat = _
      rcases hoffset with hlt | hzero
      · rw [UInt32.toNat_ofNat_of_lt' hlt]
      · rw [hzero, List.take_zero, List.take_zero]
    rw [hfind (opts.pageAt size i) _ hscans hans, ok_bind, hpage]
    rfl

end
/-! ## Queries in a transaction -/

section

variable [Crc32Fast] {storable : UInt64 → List UInt8 → Prop} {keyed : Prop} {db : Db}
  {s : InTransaction} {table : String} {state state' : TableMeta} {filters : List Filter}
  {orGroups : List (List Filter)} {rows : RowList} {opts : FindOptions} {res : FindResult}
  {Ms : String → TableModel}

omit [Crc32Fast] in
/-- The loop collects the rows that pass, up to the number it stops after. -/
theorem collectPassing_ok {test : List UInt8 → Result Bool} {stopAfter : Option ℕ}
    (hids : KeptUnder rows) (htests : ∀ r ∈ rows, ∃ b, test r.2 = .ok b) (acc : List Row) :
    InTransaction.collectPassing test stopAfter rows acc = .ok (acc ++
      match stopAfter with
      | none => (rows.filter fun r => passes (test r.2)).map rowRecord
      | some n => ((rows.filter fun r => passes (test r.2)).map rowRecord).take (n - acc.length)) := by
  induction rows generalizing acc with
  | nil => cases stopAfter <;> simp [InTransaction.collectPassing]
  | cons r rows ih =>
      have hid := hids r List.mem_cons_self
      obtain ⟨b, hb⟩ := htests r List.mem_cons_self
      have hrest := ih (fun r hr => hids r (List.mem_cons_of_mem _ hr))
        (fun r hr => htests r (List.mem_cons_of_mem _ hr))
      rw [InTransaction.collectPassing]
      by_cases hstop : stopAfter.any (· ≤ acc.length) = true
      · obtain ⟨n, rfl, hn⟩ := (Option.any_eq_true _ _).mp hstop
        have hzero : n - acc.length = 0 := Nat.sub_eq_zero_of_le (of_decide_eq_true hn)
        rw [if_pos hstop]
        dsimp only
        rw [hzero, List.take_zero, List.append_nil]
        rfl
      · rw [if_neg hstop, hb, ok_bind, List.filter_cons, hb, passes]
        cases b with
        | false => exact hrest acc
        | true =>
            rw [if_pos rfl, if_pos rfl, fromRaw_record hid, ok_bind, hrest, List.append_assoc]
            cases stopAfter with
            | none => rfl
            | some n =>
                have hlt : acc.length < n := by simpa using hstop
                obtain ⟨k, hk⟩ : ∃ k, n - acc.length = k + 1 := ⟨n - acc.length - 1, by omega⟩
                have hk' : n - (acc ++ [rowRecord r]).length = k := by
                  rw [List.length_append, List.length_singleton]
                  omega
                dsimp only
                rw [hk', hk, List.map_cons, List.take_succ_cons]
                rfl

/-- A scan in a transaction, while there are page numbers left. -/
theorem TxInv.scanAll_run (h : TxInv storable keyed s Ms)
    (hname : s.db.tables.lookup table = some state)
    (hbound : WriteGuard.bound s.guard < pageNoLimit) :
    ∃ rows, InTransaction.scanAll table state s = .ok rows s ∧ Represents rows (Ms table).rows := by
  obtain ⟨htable, P, hP, -⟩ := h.table hname
  obtain ⟨rows, hscan, hrep⟩ := scanAllW_ok hP hbound
  refine ⟨rows, ?_, hrep⟩
  rw [← currentRoot_eq] at hscan
  exact withGuard_read h.clean
    (f := fun guard => BTreeWriter.scanAllW guard (s.tx.currentRoot table state)) hscan

theorem find_run (hname : s.db.tables.lookup table = some state)
    (hscan : InTransaction.scanAll table state s = .ok rows s) (hids : KeptUnder rows)
    (hans : queryAnswer state rows opts = .ok res) :
    InTransaction.find table opts s = .ok res s := by
  obtain ⟨passing, hpassing, hres⟩ := answer_eq_ok hans
  obtain ⟨htests, rfl⟩ := matching_eq_ok hpassing
  have hcollect := @collectPassing_ok rows (fun bytes => rowPasses state.colNameToId state.colDefs
    bytes opts.filters opts.orGroups) opts.stopAfter hids htests []
  rw [List.nil_append, List.length_nil] at hcollect
  set found := (rows.filter fun r => passes (rowPasses state.colNameToId state.colDefs r.2
    opts.filters opts.orGroups)).map rowRecord with hfound
  have hcut : InTransaction.collectPassing (fun bytes => rowPasses state.colNameToId state.colDefs
      bytes opts.filters opts.orGroups) opts.stopAfter rows [] = .ok (opts.cut found) := by
    rw [hcollect]
    unfold FindOptions.cut
    cases opts.stopAfter <;> rfl
  rw [← finish_cut] at hres
  obtain ⟨sorted, hsorted, hres⟩ := bind_eq_ok.mp hres
  rw [InTransaction.find, run_bind_ok (tableState_ok hname), run_bind_ok hscan, hcut]
  show (liftM (sortRows state.colNames state.colDefs opts.sort (opts.cut found)) >>= _ :
    StateResult InTransaction FindResult) s = _
  rw [hsorted]
  cases hres
  rfl

theorem countWith_run (hname : s.db.tables.lookup table = some state)
    (hscan : InTransaction.scanAll table state s = .ok rows s)
    (hcounted : (s.tx.seen table state).rowCount.toNat = rows.length) {passing : RowList}
    (hpassing : matching state filters orGroups rows = .ok passing) :
    InTransaction.countWith table filters orGroups s =
      .ok (UInt64.ofNat passing.length) s := by
  by_cases hempty : (filters.isEmpty && orGroups.isEmpty) = true
  · rw [Bool.and_eq_true, List.isEmpty_iff, List.isEmpty_iff] at hempty
    obtain ⟨rfl, rfl⟩ := hempty
    rw [matching_all] at hpassing
    rw [countWith_seen hname, ← Except.ok.inj hpassing, ← hcounted, UInt64.ofNat_toNat]
  · have hrun : wp (InTransaction.countWith table filters orGroups)
        (fun n s' => n = UInt64.ofNat passing.length ∧ s' = s) (fun _ _ => False) s := by
      unfold InTransaction.countWith
      rw [wp_bind, wp_of_ok (tableState_ok hname), wp_get_bind, if_neg hempty, wp_bind,
        wp_of_ok hscan]
      change wp ((liftM (matching state filters orGroups rows) : StateResult InTransaction RowList) >>=
        _) _ _ s
      rw [hpassing]
      exact ⟨rfl, rfl⟩
    obtain ⟨n, s', hx, rfl, rfl⟩ := hrun.exists_ok
    exact hx

omit [Crc32Fast] in
/-- Stored rows say the ids that they are kept under. -/
theorem keptUnder_of_represents {m : UInt64 → Option (List UInt8)} (hrep : Represents rows m)
    (hstored : ∀ id row, m id = some row → Storable id row) : KeptUnder rows :=
  fun r hr => (hstored r.1 r.2 ((hrep.mem_iff r.1 r.2).mp hr)).id

/-- **A transaction answers from the rows that it sees.** -/
theorem TxInv.answersWithin (h : TxInv storable keyed s Ms)
    (hstore : ∀ id row, storable id row → Storable id row)
    (hname : s.db.tables.lookup table = some state)
    (hbound : WriteGuard.bound s.guard < pageNoLimit) :
    ∃ rows, Represents rows (Ms table).rows ∧ AnswersWithin s table state rows := by
  obtain ⟨rows, hscan, hrep⟩ := h.scanAll_run hname hbound
  obtain ⟨htable, P, hP, -⟩ := h.table hname
  have hids := keptUnder_of_represents hrep fun id row hrow =>
    hstore id row (htable.inv.stored id row hrow)
  refine ⟨rows, hrep, fun opts res hans => find_run hname hscan hids hans, ?_⟩
  exact fun filters orGroups passing hpassing =>
    countWith_run hname hscan (htable.countsRows hP hrep).counted hpassing

/-! ## Behind the commit -/

/-- The scans of a sound table list its rows. -/
theorem DbInv.lists (h : DbInv storable keyed db Ms)
    (hname : db.tables.lookup table = some state) :
    ∃ leaves branches, RowTree db.file state.rootPage leaves branches ∧
      Represents (rowsIn leaves) (Ms table).rows ∧ Lists db.file state (rowsIn leaves) := by
  obtain ⟨started, hok⟩ := h.ok
  obtain ⟨htable, P, hP, -⟩ := hok.table hname
  obtain ⟨Q, hQ, -⟩ := hP.rowsTree
  obtain ⟨leaves, branches, htree, hrep⟩ := hQ.holds
  refine ⟨leaves, branches, htree, hrep, fun r hr => ?_, htree.scanAll h.clean,
    fun keep cap htests => htree.scanAllMatching_ok h.clean cap htests,
    (htable.countsRows hP hrep).counted⟩
  obtain ⟨e, he, rfl⟩ := List.mem_map.mp hr
  exact (htree.kept e he).id

omit [Crc32Fast] in
theorem findIndexForColumn_congr (h : SameSchema state state') (column : String)
    (hnone : state.findIndexForColumn column = none) : state'.findIndexForColumn column = none := by
  rw [TableMeta.findIndexForColumn, List.find?_eq_none] at hnone ⊢
  intro idx' hidx'
  obtain ⟨idx, hidx, hshape⟩ := h.indexes.mem hidx'
  have hcolumns : idx'.columns = idx.columns := congrArg (fun shape => shape.2.1) hshape
  rw [hcolumns]
  exact hnone idx hidx

omit [Crc32Fast] in
theorem Scans.congr (h : Scans state filters orGroups) (hsame : SameSchema state state') :
    Scans state' filters orGroups :=
  ⟨fun hgroups f hf hop => findIndexForColumn_congr hsame f.column (h.noIndex hgroups f hf hop),
    h.noRaw⟩

theorem Answers.congr (h : Answers db table state' rows) (hsame : SameSchema state state') :
    Answers db table state rows := by
  have hanswer : ∀ opts, queryAnswer state rows opts = queryAnswer state' rows opts := by
    intro opts
    unfold queryAnswer matching
    rw [hsame.colNameToId, hsame.colDefs, hsame.colNames]
  refine ⟨fun opts res hscans hans => ?_, fun filters orGroups passing hscans hpassing => ?_,
    fun opts size n all hscans hall => ?_⟩
  · rw [hanswer] at hans
    exact h.find opts res (hscans.congr hsame) hans
  · unfold matching at hpassing
    rw [← hsame.colNameToId, ← hsame.colDefs] at hpassing
    exact h.count filters orGroups passing (hscans.congr hsame) hpassing
  · unfold sortedMatches matching at hall
    rw [← hsame.colNameToId, ← hsame.colDefs, ← hsame.colNames] at hall
    exact h.pages opts size n all (hscans.congr hsame) hall

/-- **Queries inside and outside a transaction.**  In every state of a transaction that is opened
on a database that a run reaches, the transaction answers every query from the rows it sees, and
if it commits, the database answers from these rows. -/
theorem Reaches.queries (hstore : ∀ id row, storable id row → Storable id row)
    (hreach : Reaches storable keyed db) (hrun : TxRun storable db.beginAcid s)
    (hname : db.tables.lookup table = some state)
    (hbound : WriteGuard.bound s.guard < pageNoLimit) :
    ∃ rows t, s.contents table = some t ∧ Represents rows t.rows ∧
      AnswersWithin s table state rows ∧
      ∀ s', InTransaction.commit s = .ok () s' → Answers s'.db table state rows := by
  obtain ⟨Ms, hinv⟩ := hreach.inv hstore
  obtain ⟨hmoves, Ms', htx⟩ := TxRun.inv hinv.beginAcid hstore hrun
  have hdb : s.db = db := hmoves.db
  have hname' : s.db.tables.lookup table = some state := by
    rw [hdb]
    exact hname
  obtain ⟨rows, hrep, hwithin⟩ := htx.answersWithin hstore hname' hbound
  have hseen : s.seenTables.lookup table = some (s.tx.seen table state) := by
    rw [s.lookup_seenTables, hname']
    rfl
  refine ⟨rows, ⟨columnValues (s.tx.seen table state), (Ms' table).rows,
    (s.tx.seen table state).nextRowid⟩, ?_, hrep, hwithin, fun s' hcommit => ?_⟩
  · rw [htx.contents_eq, contentsOf, hseen]
    rfl
  · obtain ⟨hinv', hdb'⟩ := (wlp_txCommit htx).ok hcommit
    have hlookup : s'.db.tables.lookup table = some (s.tx.seen table state) := by
      rw [hdb']
      exact hseen
    obtain ⟨leaves, -, -, hrep', hlists⟩ := hinv'.lists hlookup
    rw [hrep'.unique hrep] at hlists
    exact (hlists.answers hlookup).congr (htx.seen_sameSchema hname')

end

/-- A database with one row, and a transaction that inserts another and commits. -/
theorem queries_staged : letI := crc32Ieee
    ∃ (db : Db) (state : TableMeta) (s s' : InTransaction) (rows : RowList),
      (db.tables.lookup "t" = some state ∧ state.rowCount = 1) ∧
      db.beginAcid.checked [("t", insertNumber 9)] = some s ∧ InTransaction.commit s = .ok () s' ∧
      AnswersWithin s "t" state rows ∧ Answers s'.db "t" state rows := by
  let := crc32Ieee
  obtain ⟨db, hreaches, hstate, hs⟩ := @exists_checkedRun _
    [.returned (createNumbers "t"), .returned (.row "t" (insertNumber 5))]
    (fun db => ((db.tables.lookup "t").any fun state => state.rowCount = 1) ∧
      ((db.beginAcid.checked [("t", insertNumber 9)]).any fun s =>
        WriteGuard.bound s.guard < pageNoLimit ∧
          (attempt InTransaction.commit s).toOption.isSome)) _ (by decide +kernel)
  obtain ⟨state, hname, hcount⟩ := (Option.any_eq_true _ _).mp hstate
  obtain ⟨s, hchecked, hs⟩ := (Option.any_eq_true _ _).mp hs
  obtain ⟨hbound, hattempt⟩ := of_decide_eq_true hs
  obtain ⟨⟨⟩, hcommit⟩ := exists_of_attempt hattempt
  obtain ⟨rows, -, -, -, hwithin, hafter⟩ := Reaches.queries (fun _ _ => id) hreaches
    (InTransaction.checked_run hchecked) hname hbound
  exact ⟨db, state, s, _, rows, ⟨hname, of_decide_eq_true hcount⟩, hchecked, hcommit, hwithin,
    hafter _ hcommit⟩

end BoogyDb
