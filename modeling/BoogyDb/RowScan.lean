import BoogyDb.Lib.StopLoop
import BoogyDb.RowRuns
import BoogyDb.Scan

/-!
# Scans of a table tree, as loops over its rows

Every scan is one loop over the cells of the tree in the order of their ids
(`walkLeaves_visit`), and the pages the cells are on drop out.  What a scan returns
is then said in terms of the rows: all that pass, a page of them, their number, or
the ones of given ids.  A scan that cannot stop goes through exactly when its test
does on every row.
-/

namespace BoogyDb

open Bytes WriteGuard FencedTree StopLoop

/-! ## Cells -/

section

variable [Crc32Fast] {β : Type} {rows : List (List UInt8)} {next prev : ℕ}
  {step : β → List UInt8 → Result (β × Bool)}

/-- A loop over positions of a leaf page is a loop over the rows there. -/
theorem scanRows_positions (hfits : Fits rows) (hne : ∀ row ∈ rows, row ≠ []) {idxs : List ℕ}
    (hidxs : ∀ i ∈ idxs, i < rows.length) (acc : β) :
    scanRows (leafPage rows next prev) step idxs acc =
      visit step (idxs.map fun i => rows.getD i []) acc := by
  induction idxs generalizing acc with
  | nil => rfl
  | cons i idxs ih =>
      rw [List.forall_mem_cons] at hidxs
      obtain ⟨hlt, hidxs⟩ := hidxs
      have hend := rowEnd_le hfits hlt
      have hpos := List.length_pos_iff.mpr (hne _ (List.getElem_mem hlt))
      have hrow : rows.getD i [] = rows[i] := by
        rw [List.getD_eq_getElem?_getD, List.getElem?_eq_getElem hlt, Option.getD_some]
      rw [List.map_cons, hrow, scanRows, numRows_leafPage hfits, rowBounds_leafPage hfits hlt,
        ok_bind]
      dsimp only
      rw [if_pos ⟨by omega, hend.trans (Nat.sub_le _ _)⟩,
        bytesOf_ok (Nat.le_add_right _ _) (by rw [Page.size]; exact hend.trans (Nat.sub_le _ _)),
        slice_leafPage hfits hlt, ok_bind]
      cases hstep : step acc rows[i] with
      | error e => rw [visit_cons_of_error hstep]; rfl
      | ok r =>
          obtain ⟨acc', done⟩ := r
          cases done with
          | true => rw [visit_cons_of_stop hstep]; rfl
          | false =>
              rw [visit_cons_of_go hstep]
              exact ih hidxs acc'

omit [Crc32Fast] in
theorem map_getD_range (rows : List (List UInt8)) :
    (List.range rows.length).map (fun i => rows.getD i []) = rows := by
  refine List.ext_getElem (by simp) fun i hi hi' => ?_
  simp [List.getD_eq_getElem?_getD, List.getElem?_eq_getElem hi']

/-- A loop over a leaf page is a loop over its rows. -/
theorem scanRows_leafPage (hfits : Fits rows) (hne : ∀ row ∈ rows, row ≠ []) (acc : β) :
    scanRows (leafPage rows next prev) step (List.range (leafPage rows next prev).numRows) acc =
      visit step rows acc := by
  rw [numRows_leafPage hfits, scanRows_positions hfits hne fun i hi => List.mem_range.mp hi,
    map_getD_range]

end

/-! ## Leaf chains -/

section

variable [Crc32Fast] {κ α β : Type} [LinearOrder κ] {cell : κ × α → List UInt8}
  {step : β → List UInt8 → Result (β × Bool)} {stop : β → Bool} {l : Leaf κ α}
  {post : List (Leaf κ α)}

omit [Crc32Fast] [LinearOrder κ] in
theorem map_contents_cons (l : Leaf κ α) (post : List (Leaf κ α)) :
    (contents (l :: post)).map cell = rowsOf cell l ++ (contents post).map cell := by
  show (l.entries ++ contents post).map cell = _
  rw [List.map_append]
  rfl

omit [LinearOrder κ] in
/-- **A walk along the leaf chain is one loop over the cells.**  `stop` is what the walk
asks after a leaf; in a state where it stops, the steps stop too. -/
theorem walkLeaves_visit {cycleError : String} {read : ℕ → Result Page}
    {visitPage : Page → β → Result (β × Bool)} {fuel before : ℕ} {acc : β}
    (h : Chained cell read before (l :: post) 0)
    (hvisit : ∀ q ∈ l :: post, ∀ next prev acc,
      visitPage (leafPage (rowsOf cell q) next prev) acc =
        (visit step (rowsOf cell q) acc >>= fun r => .ok (r.1, r.2 || stop r.1)))
    (hstop : ∀ acc, stop acc = true → ∀ e ∈ contents (l :: post),
      step acc (cell e) = .ok (acc, true))
    (hpages : ∀ q ∈ post, q.page ≠ 0 ∧ q.page < pageNoLimit) (hfuel : post.length < fuel) :
    walkLeaves cycleError read visitPage fuel l.page acc =
      (visit step ((contents (l :: post)).map cell) acc >>= fun r => .ok r.1) := by
  -- the induction is on the leaves behind; each of them costs one unit of fuel
  induction post generalizing l fuel before acc with
  | nil =>
      obtain ⟨fuel, rfl⟩ := Nat.exists_eq_succ_of_ne_zero (Nat.ne_of_gt hfuel)
      obtain ⟨⟨hview, -⟩, -⟩ := h
      have hnext : (leafPage (rowsOf cell l) 0 before).nextLeaf = 0 :=
        nextLeaf_leafPage (Nat.two_pow_pos _)
      rw [nextPage] at hview
      rw [walkLeaves, hview, ok_bind, hvisit l List.mem_cons_self, map_contents_cons]
      show _ = (visit step (rowsOf cell l ++ []) acc >>= _)
      rw [List.append_nil]
      cases visit step (rowsOf cell l) acc with
      | error e => rfl
      | ok r =>
          rw [ok_bind, ok_bind, ok_bind]
          dsimp only
          rw [if_pos (Or.inr hnext), pure_eq_ok]
  | cons q post ih =>
      obtain ⟨fuel, rfl⟩ := Nat.exists_eq_succ_of_ne_zero (Nat.ne_of_gt (Nat.zero_lt_of_lt hfuel))
      obtain ⟨⟨hview, -⟩, hrest⟩ := h
      rw [List.forall_mem_cons] at hpages
      obtain ⟨⟨hne, hlimit⟩, hpages⟩ := hpages
      have hnext : (leafPage (rowsOf cell l) (nextPage (q :: post) 0) before).nextLeaf = q.page :=
        nextLeaf_leafPage hlimit
      have hbehind : ∀ e ∈ contents (q :: post), e ∈ contents (l :: q :: post) := fun e he =>
        List.mem_append_right l.entries he
      rw [walkLeaves, hview, ok_bind, hvisit l List.mem_cons_self, map_contents_cons, visit_append]
      cases visit step (rowsOf cell l) acc with
      | error e => rfl
      | ok r =>
          obtain ⟨acc', done⟩ := r
          rw [ok_bind, ok_bind, ok_bind]
          dsimp only
          rw [hnext]
          by_cases hend : done = true
          · rw [if_pos (Or.inl (by rw [hend, Bool.true_or])), if_pos hend, pure_eq_ok, ok_bind]
          rw [if_neg hend]
          by_cases hstopped : stop acc' = true
          · -- the walk stops here, and the loop at the next cell
            obtain ⟨done', hloop⟩ := @visit_of_stops _ _ _ step ((contents (q :: post)).map cell)
              acc' fun b hb => by
                obtain ⟨e, he, rfl⟩ := List.mem_map.mp hb
                exact hstop acc' hstopped e (hbehind e he)
            rw [if_pos (Or.inl (by rw [hstopped, Bool.or_true])), hloop, pure_eq_ok, ok_bind]
          · rw [if_neg (by simp [hend, hstopped, hne])]
            exact ih hrest (fun q hq => hvisit q (List.mem_cons_of_mem _ hq))
              (fun acc hacc e he => hstop acc hacc e (hbehind e he)) hpages
              (Nat.lt_of_succ_lt_succ hfuel)

end

/-! ## Scans of all rows -/

section

variable [Crc32Fast] {β : Type} {file : PageFile} {root : ℕ}
  {leaves : List (Leaf UInt64 StoredRow)} {branches : List ℕ}
  {step : β → List UInt8 → Result (β × Bool)} {stop : β → Bool}

/-- A row with its id. -/
def rowOf (e : UInt64 × StoredRow) : UInt64 × List UInt8 := (e.1, e.2.row)

theorem CellTree.cell_ne_nil {α : Type} {cell : UInt64 × α → List UInt8}
    {leaves : List (Leaf UInt64 α)} (h : CellTree cell file root leaves branches) {e : UInt64 × α}
    (he : e ∈ contents leaves) : cell e ≠ [] := by
  have := (extractId_eq_ok (h.ids e he)).1
  exact List.ne_nil_of_length_pos (by omega)

theorem CellTree.scanRows_leaf {α : Type} {cell : UInt64 × α → List UInt8}
    {leaves : List (Leaf UInt64 α)} {l : Leaf UInt64 α}
    (h : CellTree cell file root leaves branches) (hl : l ∈ leaves) {next prev : ℕ} (acc : β) :
    scanRows (leafPage (rowsOf cell l) next prev) step
        (List.range (leafPage (rowsOf cell l) next prev).numRows) acc =
      visit step (rowsOf cell l) acc := by
  obtain ⟨pre, post, rfl⟩ := List.append_of_mem hl
  refine scanRows_leafPage h.tree.chained.leafAt.fits (fun row hrow => ?_) acc
  obtain ⟨e, he, rfl⟩ := List.mem_map.mp hrow
  exact h.cell_ne_nil (mem_contents hl he)

/-- **A scan from the first leaf is a loop over the rows of the tree.** -/
theorem RowTree.walk (h : RowTree file root leaves branches) (hclean : file.writeState = ⟨∅, 0⟩)
    (step : β → List UInt8 → Result (β × Bool)) (stop : β → Bool) (cycleError : String)
    (visitPage : Page → β → Result (β × Bool))
    (hvisit : ∀ page acc, visitPage page acc =
      (scanRows page step (List.range page.numRows) acc >>= fun r => .ok (r.1, r.2 || stop r.1)))
    (hstop : ∀ acc, stop acc = true → ∀ e ∈ contents leaves, step acc (cellOf e) = .ok (acc, true))
    (acc : β) :
    ∃ l, BTreeReader.findLeftmostLeaf file root = .ok l ∧
      walkLeaves cycleError file.readPage visitPage file.pageCount l acc =
        (visit (fun acc e => step acc (cellOf e)) (contents leaves) acc >>= fun r => .ok r.1) := by
  obtain ⟨l, rest, page, rfl, hdescend⟩ := h.tree.descend_leftmost
    "B+ tree depth exceeds maximum in find_leftmost_leaf"
  have hlen := h.tree.length_le
  have hbehind := @TreeOf.behind _ _ _ _ _ _ _ _ [] rest l branches h.tree
  rw [List.length_cons, bound_eq_pageCount hclean] at hlen
  rw [view_eq_readPage hclean] at hdescend
  refine ⟨l.page, by rw [BTreeReader.findLeftmostLeaf, hdescend]; rfl, ?_⟩
  rw [← visit_map, ← view_eq_readPage hclean]
  refine walkLeaves_visit h.tree.chained (fun q hq next prev acc => ?_) hstop hbehind hlen
  rw [hvisit, h.cells.scanRows_leaf hq]

/-- The loop of `scan_all_matching` on rows. -/
def keepStep (keep : List UInt8 → Result Bool) (cap : Option ℕ) (acc : RowList)
    (e : UInt64 × StoredRow) : Result (RowList × Bool) :=
  if cap.any (· ≤ acc.length) then .ok (acc, true)
  else keep e.2.row >>= fun b => .ok (if b then acc ++ [rowOf e] else acc, false)

omit [Crc32Fast] in
theorem keepRow_kept {read : ℕ → Result Page} {e : UInt64 × StoredRow}
    (hrow : reassembleRow read (cellOf e) = .ok e.2.row) (hid : extractId e.2.row = .ok e.1)
    (keep : List UInt8 → Result Bool) (cap : Option ℕ) (acc : RowList) :
    keepRow read keep cap acc (cellOf e) = keepStep keep cap acc e := by
  unfold keepRow keepStep
  split
  · rfl
  · rw [hrow, ok_bind]
    cases keep e.2.row with
    | error e => rfl
    | ok b =>
        rw [ok_bind, ok_bind]
        cases b with
        | true => rw [if_pos rfl, if_pos rfl, hid]; rfl
        | false => rfl

theorem RowTree.scanAllMatching (h : RowTree file root leaves branches)
    (hclean : file.writeState = ⟨∅, 0⟩) (keep : List UInt8 → Result Bool) (cap : Option ℕ) :
    BTreeReader.scanAllMatching file root keep cap =
      (visit (keepStep keep cap) (contents leaves) [] >>= fun r => .ok r.1) := by
  have hstop : ∀ acc : RowList, cap.any (· ≤ acc.length) = true → ∀ e ∈ contents leaves,
      keepRow file.readPage keep cap acc (cellOf e) = .ok (acc, true) := by
    intro acc hacc e _
    unfold keepRow
    rw [if_pos hacc]
    rfl
  obtain ⟨l, hleft, hwalk⟩ := h.walk hclean (keepRow file.readPage keep cap)
    (fun acc => cap.any (· ≤ acc.length)) "leaf chain cycle detected in scan_all_matching" _
    (fun _ _ => rfl) hstop []
  unfold BTreeReader.scanAllMatching
  rw [hleft, ok_bind]
  refine hwalk.trans ?_
  congr 1
  refine visit_congr fun acc e he => ?_
  have hkept := h.kept e he
  have hrow := hkept.reassemble
  rw [view_eq_readPage hclean] at hrow
  exact keepRow_kept hrow hkept.id keep cap acc

omit [Crc32Fast] in
/-- The rows that pass a test that goes through on all of them, up to a number. -/
theorem visit_keepStep {keep : List UInt8 → Result Bool} {cap : Option ℕ}
    {entries : List (UInt64 × StoredRow)} (hkeep : ∀ e ∈ entries, ∃ b, keep e.2.row = .ok b)
    (acc : RowList) :
    ∃ done, visit (keepStep keep cap) entries acc = .ok (acc ++
      match cap with
      | none => (entries.filter fun e => passes (keep e.2.row)).map rowOf
      | some n => ((entries.filter fun e => passes (keep e.2.row)).map rowOf).take (n - acc.length),
      done) := by
  induction entries generalizing acc with
  | nil =>
      refine ⟨false, ?_⟩
      cases cap <;> simp [visit]
  | cons e entries ih =>
      obtain ⟨b, hb⟩ := hkeep e List.mem_cons_self
      have hrest : ∀ e ∈ entries, ∃ b, keep e.2.row = .ok b := fun e he =>
        hkeep e (List.mem_cons_of_mem _ he)
      by_cases hcap : cap.any (· ≤ acc.length) = true
      · obtain ⟨n, rfl, hn⟩ := (Option.any_eq_true _ _).mp hcap
        have hzero : n - acc.length = 0 := Nat.sub_eq_zero_of_le (of_decide_eq_true hn)
        refine ⟨true, visit_cons_of_stop ?_⟩
        unfold keepStep
        rw [if_pos hcap]
        dsimp only
        rw [hzero, List.take_zero, List.append_nil]
      · have hstep : keepStep keep cap acc e =
            .ok (if b then acc ++ [rowOf e] else acc, false) := by
          unfold keepStep
          rw [if_neg hcap, hb, ok_bind]
        obtain ⟨done, hvisit⟩ := ih hrest (if b then acc ++ [rowOf e] else acc)
        refine ⟨done, ?_⟩
        rw [visit_cons_of_go hstep, hvisit, List.filter_cons, hb, passes]
        cases b with
        | false => rfl
        | true =>
            cases cap with
            | none => simp
            | some n =>
                have hlt : acc.length < n := by
                  by_contra hle
                  exact hcap (by simpa using hle)
                obtain ⟨k, hk⟩ : ∃ k, n - acc.length = k + 1 := ⟨n - acc.length - 1, by omega⟩
                have hk' : n - (acc.length + 1) = k := by omega
                simp only [if_pos, List.length_append, List.length_singleton, List.map_cons, hk, hk',
                  List.take_succ_cons, List.append_assoc, List.singleton_append]

omit [Crc32Fast] in
theorem map_filter_rowOf (leaves : List (Leaf UInt64 StoredRow)) (p : List UInt8 → Bool) :
    ((contents leaves).filter fun e => p e.2.row).map rowOf =
      (rowsIn leaves).filter fun r => p r.2 := by
  rw [rowsIn, List.filter_map]
  rfl

/-- **A predicate scan that goes through** returns the rows that pass, up to a number. -/
theorem RowTree.scanAllMatching_ok (h : RowTree file root leaves branches)
    (hclean : file.writeState = ⟨∅, 0⟩) {keep : List UInt8 → Result Bool} (cap : Option ℕ)
    (hkeep : ∀ r ∈ rowsIn leaves, ∃ b, keep r.2 = .ok b) :
    BTreeReader.scanAllMatching file root keep cap = .ok (
      match cap with
      | none => (rowsIn leaves).filter fun r => passes (keep r.2)
      | some n => ((rowsIn leaves).filter fun r => passes (keep r.2)).take n) := by
  obtain ⟨done, hvisit⟩ := @visit_keepStep keep cap (contents leaves)
    (fun e he => hkeep (rowOf e) (List.mem_map_of_mem he)) []
  have hrows := map_filter_rowOf leaves fun row => passes (keep row)
  rw [h.scanAllMatching hclean, hvisit, ok_bind]
  cases cap with
  | none => rw [← hrows]; rfl
  | some n => rw [← hrows]; rfl

/-- A scan of the file lists the rows of the tree. -/
theorem RowTree.scanAll (h : RowTree file root leaves branches)
    (hclean : file.writeState = ⟨∅, 0⟩) : BTreeReader.scanAll file root = .ok (rowsIn leaves) := by
  obtain ⟨l, rest, page, rfl, hdescend⟩ := h.tree.descend_leftmost
    "B+ tree depth exceeds maximum in find_leftmost_leaf"
  have hlen := h.tree.length_le
  rw [List.length_cons, bound_eq_pageCount hclean] at hlen
  rw [BTreeReader.scanAll, ← view_eq_readPage hclean, hdescend, ok_bind]
  exact walkRows_holds h hlen

/-! ## Scans for one filter -/

/-- What the raw scans make of an entry. -/
def cellTest (file : PageFile) (colId : UInt16) (op : FilterOp) (value absent : Value)
    (e : UInt64 × StoredRow) : Result Bool :=
  cellMatches file.readPage (cellOf e) colId op value absent

omit [Crc32Fast] in
theorem filterRow_kept {read : ℕ → Result Page} {e : UInt64 × StoredRow}
    (hrow : reassembleRow read (cellOf e) = .ok e.2.row) (hid : extractId e.2.row = .ok e.1)
    {colId : UInt16} {op : FilterOp} {value absent : Value} {skip take : ℕ} {stop : Option ℕ}
    (acc : RowList × ℕ) :
    filterRow read colId op value absent skip take stop acc (cellOf e) =
      pageStep (fun e => cellMatches read (cellOf e) colId op value absent) rowOf skip take stop
        acc e := by
  cases hmatch : cellMatches read (cellOf e) colId op value absent with
  | error f => rw [filterRow, pageStep, hmatch]; rfl
  | ok b =>
      cases b with
      | false =>
          rw [pageStep_fail (t := fun e => cellMatches read (cellOf e) colId op value absent) hmatch,
            filterRow, hmatch]
          rfl
      | true =>
          rw [pageStep_pass (t := fun e => cellMatches read (cellOf e) colId op value absent) hmatch,
            filterRow, hmatch, ok_bind, if_pos rfl]
          dsimp only
          split
          · rw [hrow, ok_bind, hid]
            rfl
          · rfl

section

variable {colId : UInt16} {op : FilterOp} {value : Value} {limit offset : Option UInt32}
  {stopAfter : Option ℕ} {absentDefault : Option Value}

theorem RowTree.scanFiltered (h : RowTree file root leaves branches)
    (hclean : file.writeState = ⟨∅, 0⟩) :
    BTreeReader.scanFiltered file root colId op value limit offset stopAfter absentDefault =
      (visit (pageStep (cellTest file colId op value (absentDefault.getD .null)) rowOf
        ((offset.map UInt32.toNat).getD 0) ((limit.map UInt32.toNat).getD (2 ^ 32 - 1)) stopAfter)
        (contents leaves) ([], 0) >>= fun r => .ok r.1) := by
  obtain ⟨l, hleft, hwalk⟩ := h.walk hclean
    (filterRow file.readPage colId op value (absentDefault.getD .null)
      ((offset.map UInt32.toNat).getD 0) ((limit.map UInt32.toNat).getD (2 ^ 32 - 1)) stopAfter)
    (fun _ => false) "leaf chain cycle detected in scan_filtered"
    (fun page acc => scanRows page (filterRow file.readPage colId op value
      (absentDefault.getD .null) ((offset.map UInt32.toNat).getD 0)
      ((limit.map UInt32.toNat).getD (2 ^ 32 - 1)) stopAfter) (List.range page.numRows) acc)
    (fun page acc => by
      cases scanRows page (filterRow file.readPage colId op value (absentDefault.getD .null)
        ((offset.map UInt32.toNat).getD 0) ((limit.map UInt32.toNat).getD (2 ^ 32 - 1)) stopAfter)
        (List.range page.numRows) acc with
      | error e => rfl
      | ok r => rw [ok_bind, Bool.or_false])
    (fun _ hfalse => by cases hfalse) ([], 0)
  unfold BTreeReader.scanFiltered
  rw [hleft, ok_bind]
  refine hwalk.trans ?_
  congr 1
  refine visit_congr fun acc e he => ?_
  have hkept := h.kept e he
  have hrow := hkept.reassemble
  rw [view_eq_readPage hclean] at hrow
  exact filterRow_kept hrow hkept.id acc

/-- **A filtered scan whose tests go through** returns the page of the rows that pass, and
their number when it does not stop. -/
theorem RowTree.scanFiltered_ok (h : RowTree file root leaves branches)
    (hclean : file.writeState = ⟨∅, 0⟩)
    (htest : ∀ e ∈ contents leaves,
      ∃ b, cellTest file colId op value (absentDefault.getD .null) e = .ok b)
    (hstop : ∀ n, stopAfter = some n →
      (offset.map UInt32.toNat).getD 0 + (limit.map UInt32.toNat).getD (2 ^ 32 - 1) ≤ n) :
    ∃ total, BTreeReader.scanFiltered file root colId op value limit offset stopAfter
        absentDefault = .ok (((((contents leaves).filter fun e =>
          passes (cellTest file colId op value (absentDefault.getD .null) e)).map rowOf).drop
            ((offset.map UInt32.toNat).getD 0)).take ((limit.map UInt32.toNat).getD (2 ^ 32 - 1)),
          total) ∧
      (stopAfter = none → total = ((contents leaves).filter fun e =>
        passes (cellTest file colId op value (absentDefault.getD .null) e)).length) := by
  obtain ⟨total, done, hvisit, htotal⟩ := visit_page htest rowOf _ _ stopAfter hstop ([], 0)
  refine ⟨total, ?_, fun hnone => (htotal hnone).trans (Nat.zero_add _)⟩
  rw [h.scanFiltered hclean, hvisit, ok_bind, List.nil_append, Nat.sub_zero, Nat.zero_sub,
    Nat.sub_zero]

theorem RowTree.countFiltered (h : RowTree file root leaves branches)
    (hclean : file.writeState = ⟨∅, 0⟩) :
    BTreeReader.countFiltered file root colId op value =
      (visit (fun (count : ℕ) e => cellTest file colId op value .null e >>= fun b =>
        .ok (if b then count + 1 else count, false)) (contents leaves) 0 >>= fun r => .ok r.1) := by
  obtain ⟨l, hleft, hwalk⟩ := h.walk hclean
    (fun (count : ℕ) data => do
      let matched ← cellMatches file.readPage data colId op value .null
      pure (if matched then count + 1 else count, false))
    (fun _ => false) "leaf chain cycle detected in count_filtered"
    (fun page count => scanRows page (fun (count : ℕ) data => do
      let matched ← cellMatches file.readPage data colId op value .null
      pure (if matched then count + 1 else count, false)) (List.range page.numRows) count)
    (fun page acc => by
      cases scanRows page (fun (count : ℕ) data => do
        let matched ← cellMatches file.readPage data colId op value .null
        pure (if matched then count + 1 else count, false)) (List.range page.numRows) acc with
      | error e => rfl
      | ok r => rw [ok_bind, Bool.or_false])
    (fun _ hfalse => by cases hfalse) 0
  unfold BTreeReader.countFiltered
  rw [hleft, ok_bind]
  exact hwalk

/-- **A filtered count** goes through when its tests do, and then counts the rows that
pass. -/
theorem RowTree.countFiltered_eq_ok_iff (h : RowTree file root leaves branches)
    (hclean : file.writeState = ⟨∅, 0⟩) {n : ℕ} :
    BTreeReader.countFiltered file root colId op value = .ok n ↔
      (∀ e ∈ contents leaves, ∃ b, cellTest file colId op value .null e = .ok b) ∧
        n = ((contents leaves).filter fun e =>
          passes (cellTest file colId op value .null e)).length := by
  have hok : (∀ e ∈ contents leaves, ∃ b, cellTest file colId op value .null e = .ok b) →
      BTreeReader.countFiltered file root colId op value = .ok ((contents leaves).filter fun e =>
        passes (cellTest file colId op value .null e)).length := by
    intro hall
    have hfold : ∀ (entries : List (UInt64 × StoredRow)) (count : ℕ),
        entries.foldl (fun count e =>
          if passes (cellTest file colId op value .null e) then count + 1 else count) count =
        count + (entries.filter fun e => passes (cellTest file colId op value .null e)).length := by
      intro entries
      induction entries with
      | nil => exact fun count => rfl
      | cons e entries ih =>
          intro count
          rw [List.foldl_cons, ih, List.filter_cons]
          split
          · rw [List.length_cons, Nat.add_right_comm, Nat.add_assoc]
          · rfl
    have hvisit := @visit_eq_foldl Fault ℕ (UInt64 × StoredRow)
      (fun (count : ℕ) e => cellTest file colId op value .null e >>= fun b =>
        .ok (if b then count + 1 else count, false)) (contents leaves) 0
      (fun count e => if passes (cellTest file colId op value .null e) then count + 1 else count)
      fun count e he => by rw [ok_passes (hall e he), ok_bind]; rfl
    rw [h.countFiltered hclean, hvisit, ok_bind, hfold, Nat.zero_add]
  constructor
  · intro hcount
    have hall : ∀ e ∈ contents leaves, ∃ b, cellTest file colId op value .null e = .ok b := by
      by_contra hnot
      push Not at hnot
      obtain ⟨e, he, hfail⟩ := hnot
      rw [h.countFiltered hclean] at hcount
      obtain ⟨res, hvisit, -⟩ := bind_eq_ok.mp hcount
      refine visit_not_ok (fun acc acc' done b _ hb => ?_) he (fun acc res hres => ?_) res hvisit
      · obtain ⟨keep, -, hb⟩ := bind_eq_ok.mp hb
        cases hb
        rfl
      · obtain ⟨b, hb, -⟩ := bind_eq_ok.mp hres
        exact hfail b hb
    rw [hok hall] at hcount
    exact ⟨hall, (Except.ok.inj hcount).symm⟩
  · rintro ⟨hall, rfl⟩
    exact hok hall

end

/-! ## Rows of given ids -/

omit [Crc32Fast] in
theorem takeRow_cell {read : ℕ → Result Page} {data : List UInt8} {rowid : UInt64}
    (hid : extractId data = .ok rowid) (acc : List UInt64 × List (List UInt8)) :
    takeRow read acc data =
      match acc.1.dropWhile fun id => id < rowid with
      | [] => .ok (([], acc.2), true)
      | id :: ids =>
        if id = rowid then reassembleRow read data >>= fun full => .ok ((ids, acc.2 ++ [full]), false)
        else .ok ((id :: ids, acc.2), false) := by
  unfold takeRow
  rw [hid]
  dsimp only
  cases acc.1.dropWhile fun id => id < rowid with
  | nil => rfl
  | cons id ids => rfl

omit [Crc32Fast] in
/-- What is left of ids when the ones before `id` are dropped. -/
theorem mem_dropWhile_lt {ids : List UInt64} {id k : UInt64} (hk : id ≤ k) :
    k ∈ ids.dropWhile (fun i => decide (i < id)) ↔ k ∈ ids := by
  constructor
  · exact fun h => (List.dropWhile_sublist _).subset h
  · intro h
    rw [← List.takeWhile_append_dropWhile (p := fun i => decide (i < id)) (l := ids),
      List.mem_append] at h
    rcases h with h | h
    · have hlt := List.all_eq_true.mp (List.all_takeWhile (p := fun i => decide (i < id))) k h
      exact absurd (of_decide_eq_true hlt) (not_lt_of_ge hk)
    · exact h

omit [Crc32Fast] in
/-- The loop of `multi_get_sorted` over cells in the order of their ids: it puts together
the cells of the ids, one after the other. -/
theorem visit_takeRow {α : Type} {cell : UInt64 × α → List UInt8} {read : ℕ → Result Page}
    {entries : List (UInt64 × α)} (hid : ∀ e ∈ entries, extractId (cell e) = .ok e.1)
    (hinc : KeysIncrease entries) {ids : List UInt64} (hsorted : ids.Pairwise (· ≤ ·))
    (out : List (List UInt8)) :
    (visit (fun acc e => takeRow read acc (cell e)) entries (ids, out) >>= fun r => .ok r.1.2) =
      ((entries.filter fun e => e.1 ∈ ids).mapM fun e => reassembleRow read (cell e)) >>=
        fun rows => .ok (out ++ rows) := by
  have hgo : ∀ {e entries acc acc'}, takeRow read acc (cell e) = .ok (acc', false) →
      visit (fun acc e => takeRow read acc (cell e)) (e :: entries) acc =
        visit (fun acc e => takeRow read acc (cell e)) entries acc' := fun h => visit_cons_of_go h
  induction entries generalizing ids out with
  | nil =>
      show Except.ok out = Except.ok (out ++ [])
      rw [List.append_nil]
  | cons e entries ih =>
      obtain ⟨hlow, hinc⟩ := List.pairwise_cons.mp hinc
      have hstep := @takeRow_cell read (cell e) e.1 (hid e List.mem_cons_self) (ids, out)
      have hrest := fun {ids : List UInt64} (hids : ids.Pairwise (· ≤ ·)) (out : List (List UInt8)) =>
        @ih (fun e he => hid e (List.mem_cons_of_mem _ he)) hinc ids hids out
      have hmem : ∀ {k}, e.1 ≤ k → (k ∈ ids.dropWhile (fun i => decide (i < e.1)) ↔ k ∈ ids) :=
        fun hk => mem_dropWhile_lt hk
      have hdrop := hsorted.sublist (List.dropWhile_sublist fun i => decide (i < e.1))
      cases hleft : ids.dropWhile fun i => decide (i < e.1) with
      | nil =>
          -- no id is left, and no row behind this one has one of them
          have hnone : ∀ x ∈ e :: entries, x.1 ∉ ids := by
            intro x hx hin
            have hle : e.1 ≤ x.1 := by
              rcases List.mem_cons.mp hx with rfl | hx
              · exact le_rfl
              · exact (hlow x hx).le
            rw [← hmem hle, hleft] at hin
            exact absurd hin List.not_mem_nil
          have hfilter : (e :: entries).filter (fun x => decide (x.1 ∈ ids)) = [] :=
            List.filter_eq_nil_iff.mpr fun x hx => by simpa using hnone x hx
          dsimp only at hstep
          rw [hleft] at hstep
          have hend : visit (fun acc e => takeRow read acc (cell e)) (e :: entries) (ids, out) =
              .ok (([], out), true) := visit_cons_of_stop hstep
          rw [hfilter, hend]
          show Except.ok out = Except.ok (out ++ [])
          rw [List.append_nil]
      | cons id rest =>
          rw [hleft] at hdrop hmem
          dsimp only at hstep
          rw [hleft] at hstep
          dsimp only at hstep
          obtain ⟨hfirst, hrestSorted⟩ := List.pairwise_cons.mp hdrop
          by_cases heq : id = e.1
          · -- the id of this cell: the row is put together, or the loop ends with its error
            rw [if_pos heq] at hstep
            have hhit : decide (e.1 ∈ ids) = true :=
              decide_eq_true ((hmem le_rfl).mp (heq ▸ List.mem_cons_self))
            have hsame : entries.filter (fun x => decide (x.1 ∈ ids)) =
                entries.filter fun x => decide (x.1 ∈ rest) := by
              refine List.filter_congr fun x hx => ?_
              have hne : x.1 ≠ id := heq ▸ (hlow x hx).ne'
              rw [decide_eq_decide, ← hmem (hlow x hx).le, List.mem_cons]
              exact ⟨fun h => h.resolve_left hne, .inr⟩
            rw [List.filter_cons, hhit, if_pos rfl, hsame, List.mapM_cons]
            cases hfull : reassembleRow read (cell e) with
            | error f =>
                rw [hfull] at hstep
                have hend : visit (fun acc e => takeRow read acc (cell e)) (e :: entries)
                    (ids, out) = .error f := visit_cons_of_error hstep
                rw [hend]
                rfl
            | ok full =>
                rw [hfull] at hstep
                rw [hgo hstep, hrest hrestSorted (out ++ [full]), ok_bind]
                cases (entries.filter fun x => decide (x.1 ∈ rest)).mapM
                    fun e => reassembleRow read (cell e) with
                | error f => rfl
                | ok rows =>
                    show Except.ok (out ++ [full] ++ rows) = Except.ok (out ++ full :: rows)
                    rw [List.append_assoc, List.singleton_append]
          · rw [if_neg heq] at hstep
            have hlt : e.1 < id := by
              have hnot := List.head?_dropWhile_not (fun i => decide (i < e.1)) ids
              rw [hleft] at hnot
              have hge : ¬ id < e.1 := by simpa using hnot
              exact lt_of_le_of_ne (not_lt.mp hge) fun h => heq h.symm
            have hmiss : decide (e.1 ∈ ids) = false := by
              refine decide_eq_false fun hin => ?_
              rw [← hmem le_rfl] at hin
              rcases List.mem_cons.mp hin with hin | hin
              · exact heq hin.symm
              · exact absurd hlt (not_lt_of_ge (hfirst _ hin))
            have hsame : entries.filter (fun x => decide (x.1 ∈ ids)) =
                entries.filter fun x => decide (x.1 ∈ id :: rest) :=
              List.filter_congr fun x hx => by rw [decide_eq_decide, ← hmem (hlow x hx).le]
            rw [hgo hstep, hrest hdrop out, List.filter_cons, hmiss, hsame]
            rfl

/-- **A batch read puts together the cells of the ids**, in their order. -/
theorem CellTree.multiGetSorted {α : Type} {cell : UInt64 × α → List UInt8}
    {leaves : List (Leaf UInt64 α)} (h : CellTree cell file root leaves branches)
    (hclean : file.writeState = ⟨∅, 0⟩) {rowids : List UInt64}
    (hsorted : rowids.Pairwise (· ≤ ·)) :
    BTreeReader.multiGetSorted file root rowids =
      ((contents leaves).filter fun e => e.1 ∈ rowids).mapM
        fun e => reassembleRow file.readPage (cell e) := by
  cases rowids with
  | nil => simp [BTreeReader.multiGetSorted]
  | cons rowid rest =>
      obtain ⟨pre, l, post, rfl, hle, -, -, hdescend⟩ := h.tree.descend_key rowid
        "B+ tree depth exceeds maximum in find_leaf_for_rowid"
      obtain ⟨hfirst, -⟩ := List.pairwise_cons.mp hsorted
      have hview := view_eq_readPage hclean
      have hlen := h.tree.length_le
      rw [List.length_append, List.length_cons, bound_eq_pageCount hclean] at hlen
      have hsub : ∀ e ∈ contents (l :: post), e ∈ contents (pre ++ l :: post) := fun e he => by
        rw [contents_append]
        exact List.mem_append_right _ he
      -- the leaves before the one of the first id hold smaller ids
      have hbefore : ∀ e ∈ contents pre, e.1 ∉ rowid :: rest := by
        intro e he hin
        obtain ⟨q, hq, he⟩ := List.mem_flatMap.mp he
        obtain ⟨-, -, hcross⟩ := List.pairwise_append.mp h.tree.ordered.before
        have hlt := ((hcross q hq l List.mem_cons_self).entries e he).trans_le hle
        rcases List.mem_cons.mp hin with heq | hin
        · exact absurd (WithBot.coe_lt_coe.mp hlt) (heq ▸ lt_irrefl _)
        · exact absurd (WithBot.coe_lt_coe.mp hlt) (not_lt_of_ge (hfirst _ hin))
      have hleaf : BTreeReader.findLeafForRowid file root rowid = .ok l.page := by
        rw [hview] at hdescend
        unfold BTreeReader.findLeafForRowid
        rw [hdescend]
        rfl
      have hchained := hview ▸ (chained_append.mp h.tree.chained).2
      have hpages : post.length < file.pageCount := by omega
      have hinc := h.tree.ordered.keysIncrease
      rw [contents_append] at hinc
      have hvisit := @visit_takeRow α cell file.readPage (contents (l :: post))
        (fun e he => h.ids e (hsub e he)) (List.pairwise_append.mp hinc).2.1 _ hsorted []
      have hskip : (contents pre).filter (fun e => decide (e.1 ∈ rowid :: rest)) = [] :=
        List.filter_eq_nil_iff.mpr fun e he => by simpa using hbefore e he
      rw [contents_append, List.filter_append, hskip, List.nil_append]
      unfold BTreeReader.multiGetSorted
      dsimp only
      rw [hleaf, ok_bind, @walkLeaves_visit _ UInt64 α (List UInt64 × List (List UInt8)) cell
        (takeRow file.readPage) (fun acc => acc.1.isEmpty) l post _ file.readPage _ file.pageCount
        (lastPage 0 pre) (rowid :: rest, []) hchained ?_ ?_ h.tree.behind hpages, visit_map]
      · refine Eq.trans ?_ (hvisit.trans ?_)
        · cases visit (fun acc e => takeRow file.readPage acc (cell e)) (contents (l :: post))
              (rowid :: rest, []) <;> rfl
        · simp only [List.nil_append]
          exact bind_pure _
      · intro q hq next prev acc
        rw [h.scanRows_leaf (List.mem_append_right _ hq)]
        rfl
      · intro acc hacc e he
        obtain ⟨ids, out⟩ := acc
        obtain rfl : ids = [] := List.isEmpty_iff.mp hacc
        rw [takeRow_cell (h.ids e (hsub e he))]
        rfl

/-- **A batch read returns the rows of the ids.** -/
theorem RowTree.multiGetSorted (h : RowTree file root leaves branches)
    (hclean : file.writeState = ⟨∅, 0⟩) {rowids : List UInt64}
    (hsorted : rowids.Pairwise (· ≤ ·)) :
    BTreeReader.multiGetSorted file root rowids =
      .ok (((rowsIn leaves).filter fun r => r.1 ∈ rowids).map Prod.snd) := by
  rw [h.cells.multiGetSorted hclean hsorted, Except.mapM_eq_ok_iff, rowsIn, List.filter_map,
    List.map_map, List.forall₂_map_right_iff]
  refine List.forall₂_same.mpr fun e he => ?_
  have hrow := (h.kept e (List.mem_filter.mp he).1).reassemble
  rw [view_eq_readPage hclean] at hrow
  exact hrow

end

end BoogyDb
