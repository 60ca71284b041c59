import BoogyDb.FindRows
import BoogyDb.LeafWalk
import BoogyDb.LongRow
import BoogyDb.Lib.Paging

/-!
# Paging through a table by row id

A batch in primary-key order visits the rows beyond its bound, in order, until it is full and
sees another row (`RowTree.scanFrom`).  So the walk from batch to batch visits all rows, and
it returns those that pass.

The predicate is evaluated on the bytes of a row, and that can fail: a row whose column data
is longer than its 16-bit offsets can say is read out of bounds.  The walk is complete
exactly when the predicate goes through on every row (`primary_key_walk_complete_iff`).
-/

namespace BoogyDb

open Bytes WriteGuard FencedTree StopLoop Paging BinarySearch

/-! ## The rows beyond a bound -/

section

variable {leaves : List (Leaf UInt64 StoredRow)} {dir : SortDir} {after : Option UInt64}

/-- The entries beyond a bound, in the order of a scan. -/
def beyondRows (leaves : List (Leaf UInt64 StoredRow)) (dir : SortDir) (after : Option UInt64) :
    List (UInt64 × StoredRow) :=
  (dir.order (contents leaves)).filter fun e => dir.beyond after e.1

/-- `a` comes before `b` in the direction. -/
def SortDir.Precedes (dir : SortDir) (a b : UInt64) : Prop :=
  match dir with
  | .asc => a < b
  | .desc => b < a

theorem SortDir.beyond_some {a b : UInt64} : dir.beyond (some a) b = true ↔ dir.Precedes a b := by
  cases dir <;> exact decide_eq_true_iff

theorem SortDir.Precedes.not_self {a : UInt64} : ¬ dir.Precedes a a := by
  cases dir <;> exact lt_irrefl a

theorem SortDir.Precedes.asymm {a b : UInt64} (h : dir.Precedes a b) : ¬ dir.Precedes b a := by
  cases dir <;> exact not_lt_of_gt h

theorem order_contents_pairwise (h : KeysIncrease (contents leaves)) (dir : SortDir) :
    (dir.order (contents leaves)).Pairwise fun a b => dir.Precedes a.1 b.1 := by
  cases dir with
  | asc => exact h
  | desc => exact List.pairwise_reverse.mpr h

theorem beyondRows_none : beyondRows leaves dir none = dir.order (contents leaves) :=
  List.filter_eq_self.mpr fun _ _ => rfl

/-- Behind the id of a row are the rows after it. -/
theorem beyondRows_some (h : KeysIncrease (contents leaves)) {visited rest : List (UInt64 × StoredRow)}
    {e : UInt64 × StoredRow} (hsplit : dir.order (contents leaves) = visited ++ e :: rest) :
    beyondRows leaves dir (some e.1) = rest := by
  have hinc := order_contents_pairwise h dir
  rw [hsplit, List.pairwise_append, List.pairwise_cons] at hinc
  obtain ⟨-, ⟨hrest, -⟩, hvisited⟩ := hinc
  have hpassed : visited.filter (fun x => dir.beyond (some e.1) x.1) = [] :=
    List.filter_eq_nil_iff.mpr fun x hx => by
      rw [SortDir.beyond_some]
      exact (hvisited x hx e List.mem_cons_self).asymm
  have hself : dir.beyond (some e.1) e.1 = false := by
    rw [← Bool.not_eq_true, SortDir.beyond_some]
    exact SortDir.Precedes.not_self
  rw [beyondRows, hsplit, List.filter_append, hpassed, List.filter_cons_of_neg (by simp [hself]),
    List.nil_append]
  exact List.filter_eq_self.mpr fun x hx => SortDir.beyond_some.mpr (hrest x hx)

end

/-! ## One batch -/

section

variable {keep : List UInt8 → Result Bool} {limit : ℕ}

/-- The loop of `scan_from` on rows beyond the bound. -/
def fromStep (keep : List UInt8 → Result Bool) (limit : ℕ) (acc : RowList × Option UInt64)
    (e : UInt64 × StoredRow) : Result ((RowList × Option UInt64) × Bool) :=
  if limit ≤ acc.1.length then .ok ((acc.1, acc.1.getLast?.map Prod.fst), true)
  else keep e.2.row >>= fun b => .ok ((if b then acc.1 ++ [rowOf e] else acc.1, acc.2), false)

theorem fromRow_kept {read : ℕ → Result Page} {e : UInt64 × StoredRow}
    (hrow : reassembleRow read (cellOf e) = .ok e.2.row) (hid : extractId (cellOf e) = .ok e.1)
    (dir : SortDir) (after : Option UInt64) (acc : RowList × Option UInt64) :
    fromRow read keep dir after limit acc (cellOf e) =
      if dir.beyond after e.1 then fromStep keep limit acc e else .ok (acc, false) := by
  unfold fromRow fromStep
  rw [hid]
  dsimp only
  cases dir.beyond after e.1 with
  | false => rfl
  | true =>
      rw [if_pos rfl]
      show (if limit ≤ acc.1.length then _ else _) = _
      split
      · rfl
      · rw [hrow, ok_bind]
        cases keep e.2.row with
        | error e => rfl
        | ok b => cases b <;> rfl

/-- What a batch gives of a row. -/
def keptRow (keep : List UInt8 → Result Bool) (e : UInt64 × StoredRow) :
    Option (UInt64 × List UInt8) :=
  if passes (keep e.2.row) then some (rowOf e) else none

/-- **A batch that went through**: it has visited the first rows, and where it left some, it is
full and the last row it visited is the last it took. -/
theorem visit_fromStep {entries : List (UInt64 × StoredRow)} {acc : RowList}
    {res : RowList × Option UInt64} {done : Bool}
    (h : visit (fromStep keep limit) entries (acc, none) = .ok (res, done)) :
    ∃ visited rest, entries = visited ++ rest ∧ (∀ e ∈ visited, ∃ b, keep e.2.row = .ok b) ∧
      res.1 = acc ++ visited.filterMap (keptRow keep) ∧
      (acc.length ≤ limit → res.1.length ≤ limit) ∧
      (rest = [] ∧ res.2 = none ∨ rest ≠ [] ∧ limit ≤ res.1.length ∧
        res.2 = res.1.getLast?.map Prod.fst ∧
        ∀ e ∈ visited.getLast?, keptRow keep e = some (rowOf e)) := by
  induction entries generalizing acc with
  | nil =>
      cases h
      exact ⟨[], [], rfl, by simp, by simp, id, .inl ⟨rfl, rfl⟩⟩
  | cons e entries ih =>
      by_cases hfull : limit ≤ acc.length
      · have hstep : fromStep keep limit (acc, none) e =
            .ok ((acc, acc.getLast?.map Prod.fst), true) := if_pos hfull
        rw [visit_cons_of_stop hstep] at h
        cases h
        exact ⟨[], e :: entries, rfl, by simp, by simp, id, .inr ⟨by simp, hfull, rfl, by simp⟩⟩
      cases hkeep : keep e.2.row with
      | error err =>
          have hstep : fromStep keep limit (acc, none) e = .error err := by
            rw [fromStep, if_neg hfull, hkeep]
            rfl
          rw [visit_cons_of_error hstep] at h
          cases h
      | ok b =>
          have hstep : fromStep keep limit (acc, none) e =
              .ok ((if b then acc ++ [rowOf e] else acc, none), false) := by
            rw [fromStep, if_neg hfull, hkeep]
            rfl
          have hacc : (if b then acc ++ [rowOf e] else acc) =
              acc ++ (keptRow keep e).toList := by
            rw [keptRow, hkeep]
            cases b <;> simp [passes]
          rw [visit_cons_of_go hstep, hacc] at h
          obtain ⟨visited, rest, rfl, hfine, hrows, hle, hend⟩ := ih h
          refine ⟨e :: visited, rest, rfl, ?_, ?_, fun _ => hle ?_, ?_⟩
          · rw [List.forall_mem_cons]
            exact ⟨⟨b, hkeep⟩, hfine⟩
          · rw [hrows, List.append_assoc, List.filterMap_cons]
            cases keptRow keep e <;> rfl
          · rw [List.length_append]
            cases keptRow keep e <;> simp only [Option.toList, List.length_nil, List.length_singleton]
              <;> omega
          · rcases hend with hend | ⟨hne, hlen, htoken, hlast⟩
            · exact .inl hend
            refine .inr ⟨hne, hlen, htoken, ?_⟩
            cases visited with
            | cons x visited => exact hlast
            | nil =>
                -- the batch is full right after `e`, so it took `e`
                intro x hx
                obtain rfl : e = x := by simpa using hx
                rw [List.filterMap_nil, List.append_nil] at hrows
                rw [hrows] at hlen
                refine if_pos ?_
                by_contra hmiss
                rw [keptRow, if_neg hmiss, Option.toList, List.append_nil] at hlen
                exact hfull hlen

/-- A batch goes through when the predicate does. -/
theorem visit_fromStep_ok {entries : List (UInt64 × StoredRow)}
    (hkeep : ∀ e ∈ entries, ∃ b, keep e.2.row = .ok b) (acc : RowList × Option UInt64) :
    ∃ res, visit (fromStep keep limit) entries acc = .ok res := by
  induction entries generalizing acc with
  | nil => exact ⟨_, rfl⟩
  | cons e entries ih =>
      rw [List.forall_mem_cons] at hkeep
      obtain ⟨⟨b, hb⟩, hkeep⟩ := hkeep
      by_cases hfull : limit ≤ acc.1.length
      · exact ⟨_, visit_cons_of_stop (if_pos hfull)⟩
      · obtain ⟨res, hres⟩ := ih hkeep (if b then acc.1 ++ [rowOf e] else acc.1, acc.2)
        refine ⟨res, (visit_cons_of_go ?_).trans hres⟩
        rw [fromStep, if_neg hfull, hb]
        rfl

end

/-! ## The walk of the leaves -/

section

variable [Crc32Fast] {file : PageFile} {root : ℕ} {leaves : List (Leaf UInt64 StoredRow)}
  {branches : List ℕ} {dir : SortDir} {after : Option UInt64}

theorem RowTree.findLeafForRowid (h : RowTree file root leaves branches)
    (hclean : file.writeState = ⟨∅, 0⟩) (rowid : UInt64) (depthError : String) :
    ∃ pre l post, leaves = pre ++ l :: post ∧ l.fence ≤ (rowid : WithBot UInt64) ∧
      (∀ q ∈ post, (rowid : WithBot UInt64) < q.fence) ∧
      ∃ page, descend depthError file.readPage (routeKey rowBranch rowid) maxTreeDepth root =
        .ok (l.page, page) := by
  obtain ⟨pre, l, post, hleaves, hle, hlt, -, hdescend⟩ := h.tree.descend_key rowid depthError
  rw [view_eq_readPage hclean] at hdescend
  exact ⟨pre, l, post, hleaves, hle, hlt, _, hdescend⟩

/-- The leaf a scan starts in. -/
theorem RowTree.startLeaf (h : RowTree file root leaves branches)
    (hclean : file.writeState = ⟨∅, 0⟩) (dir : SortDir) (after : Option UInt64) :
    ∃ l rest, BTreeReader.startLeaf file root dir after = .ok l.page ∧
      StartsAt leaves dir after l rest := by
  have hsorted := h.tree.ordered
  cases after with
  | some rowid =>
      obtain ⟨pre, l, post, rfl, hle, hlt, page, hdescend⟩ := h.findLeafForRowid hclean rowid
        "B+ tree depth exceeds maximum in find_leaf_for_rowid"
      have hleaf : BTreeReader.startLeaf file root dir (some rowid) = .ok l.page := by
        show BTreeReader.findLeafForRowid file root rowid = _
        rw [BTreeReader.findLeafForRowid, hdescend]
        rfl
      cases dir with
      | asc =>
          refine ⟨l, post, hleaf, startsAt_asc fun q hq e he => ?_⟩
          obtain ⟨-, -, hcross⟩ := List.pairwise_append.mp hsorted.before
          have hbelow := ((hcross q hq l List.mem_cons_self).entries e he).trans_le hle
          exact decide_eq_false (WithBot.coe_lt_coe.mp hbelow).asymm
      | desc =>
          refine ⟨l, pre.reverse, hleaf, startsAt_desc fun q hq e he => ?_⟩
          have hq' : q ∈ pre ++ l :: post := List.mem_append_right _ (List.mem_cons_of_mem _ hq)
          have habove := (hlt q hq).trans_le ((hsorted.sorted q hq').fenced e he)
          exact decide_eq_false (WithBot.coe_lt_coe.mp habove).asymm
  | none =>
      cases dir with
      | asc =>
          obtain ⟨l, rest, page, rfl, hdescend⟩ := h.tree.descend_leftmost
            "B+ tree depth exceeds maximum in find_leftmost_leaf"
          rw [view_eq_readPage hclean] at hdescend
          refine ⟨l, rest, ?_, @startsAt_asc _ _ _ [] rest l none fun q hq => by cases hq⟩
          show BTreeReader.findLeftmostLeaf file root = _
          rw [BTreeReader.findLeftmostLeaf, hdescend]
          rfl
      | desc =>
          obtain ⟨pre, l, post, rfl, -, hlt, page, hdescend⟩ := h.findLeafForRowid hclean
            (UInt64.ofNat (2 ^ 64 - 1)) "B+ tree depth exceeds maximum in find_rightmost_leaf"
          have hnil : post = [] := by
            -- no fence is above the largest row id
            rw [List.eq_nil_iff_forall_not_mem]
            intro q hq
            have hfence := hlt q hq
            cases hf : q.fence with
            | bot =>
                rw [hf] at hfence
                exact absurd hfence (by simp)
            | coe k =>
                rw [hf, WithBot.coe_lt_coe, UInt64.lt_iff_toNat_lt] at hfence
                have := k.toNat_lt
                have hmax : (UInt64.ofNat (2 ^ 64 - 1)).toNat = 2 ^ 64 - 1 := by decide
                omega
          subst hnil
          refine ⟨l, pre.reverse, ?_, startsAt_desc fun q hq => by cases hq⟩
          show BTreeReader.findRightmostLeaf file root = _
          rw [BTreeReader.findRightmostLeaf, hdescend]
          rfl

theorem RowTree.linkedToward (h : RowTree file root leaves branches)
    (hclean : file.writeState = ⟨∅, 0⟩) (dir : SortDir) :
    LinkedToward cellOf file.readPage dir (dir.order leaves) := by
  have hbelow : ∀ l ∈ leaves, l.page < pageNoLimit := fun l hl =>
    (h.tree.below _ (List.mem_append_left _ (List.mem_map_of_mem hl))).2
  have hchained := h.tree.chained
  rw [view_eq_readPage hclean] at hchained
  cases dir with
  | asc => exact linkedToward_asc hchained hbelow
  | desc => exact linkedToward_desc hchained hbelow

/-- **A batch is one loop over the rows beyond its bound.** -/
theorem RowTree.scanFrom (h : RowTree file root leaves branches)
    (hclean : file.writeState = ⟨∅, 0⟩) (hzero : ∀ l ∈ leaves, l.page ≠ 0) {limit : UInt32}
    (hlimit : limit ≠ 0) (keep : List UInt8 → Result Bool) (dir : SortDir)
    (after : Option UInt64) :
    BTreeReader.scanFrom file root after dir limit keep =
      (visit (fromStep keep limit.toNat) (beyondRows leaves dir after) ([], none) >>= fun r =>
        .ok r.1) := by
  obtain ⟨l, rest, hstart, hstarts⟩ := h.startLeaf hclean dir after
  obtain ⟨passed, hleaves⟩ := hstarts.leaves_eq
  have hmem : ∀ q ∈ l :: rest, q ∈ leaves := fun q hq => by
    rw [← @SortDir.mem_order _ dir, hleaves]
    exact List.mem_append_right _ hq
  -- the leaves are pages of the file, so the walk ends before its turns do
  have hlen : rest.length < file.pageCount := by
    have hle := h.tree.length_le
    have hsame : (dir.order leaves).length = leaves.length := by
      cases dir with
      | asc => rfl
      | desc => exact List.length_reverse
    rw [hleaves, List.length_append, List.length_cons] at hsame
    rw [bound_eq_pageCount hclean] at hle
    omega
  have hlinked := h.linkedToward hclean dir
  rw [hleaves] at hlinked
  have hvisit : ∀ q ∈ l :: rest, ∀ next prev (acc : RowList × Option UInt64),
      scanRows (leafPage (rowsOf cellOf q) next prev)
        (fromRow file.readPage keep dir after limit.toNat)
        (dir.order (List.range (leafPage (rowsOf cellOf q) next prev).numRows)) acc =
      visit (fromRow file.readPage keep dir after limit.toNat) (dir.order (rowsOf cellOf q)) acc := by
    intro q hq next prev acc
    obtain ⟨pre, post, rfl⟩ := List.append_of_mem (hmem q hq)
    refine scanRows_order h.tree.chained.leafAt.fits (fun row hrow => ?_) dir acc
    obtain ⟨e, he, rfl⟩ := List.mem_map.mp hrow
    exact h.cells.cell_ne_nil (mem_contents (hmem q hq) he)
  have hwalk := @walkToward_visit _ UInt64 StoredRow _ cellOf file.readPage dir l rest
    (fromRow file.readPage keep dir after limit.toNat)
    s!"leaf chain cycle detected in scan_from({dir.name})"
    (fun page acc => scanRows page (fromRow file.readPage keep dir after limit.toNat)
      (dir.order (List.range page.numRows)) acc) file.pageCount ([], none)
    (linkedToward_suffix hlinked) hvisit
    (fun q hq => hzero q (hmem q (List.mem_cons_of_mem _ hq))) hlen
  -- the cells of the leaves, each in the order of the walk, are those of the rows beyond the bound
  have hcells : ((l :: rest).flatMap fun q => dir.order (rowsOf cellOf q)) =
      ((l :: rest).flatMap fun q => dir.order q.entries).map cellOf := by
    rw [List.map_flatMap]
    congr 1
    funext q
    exact SortDir.order_map dir cellOf q.entries
  rw [BTreeReader.scanFrom, if_neg hlimit, hstart, ok_bind]
  refine hwalk.trans ?_
  rw [hcells, visit_map, beyondRows, hstarts.beyond, ← visit_filter]
  congr 1
  refine visit_congr fun acc e he => ?_
  obtain ⟨q, hq, he⟩ := List.mem_flatMap.mp he
  have hkept := h.kept e (mem_contents (hmem q hq) (SortDir.mem_order.mp he))
  have hrow := hkept.reassemble
  rw [view_eq_readPage hclean] at hrow
  exact fromRow_kept hrow hkept.extractId_cell dir after acc

end

/-! ## Batches -/

section

variable [Crc32Fast] {file : PageFile} {table : String} {state : TableMeta}
  {leaves : List (Leaf UInt64 StoredRow)} {branches : List ℕ} {filters : List Filter}
  {orGroups : List (List Filter)} {dir : SortDir} {after : Option ScanKey} {limit : UInt32}

/-- The predicate of a scan. -/
def scanTest (state : TableMeta) (filters : List Filter) (orGroups : List (List Filter))
    (bytes : List UInt8) : Result Bool :=
  rowPasses state.colNameToId state.colDefs bytes filters orGroups

/-- What a batch returns of a row. -/
def takenRow (keep : List UInt8 → Result Bool) (e : UInt64 × StoredRow) : Option Row :=
  if passes (keep e.2.row) then some (toRow e) else none

/-- The token of a row. -/
def rowToken (e : UInt64 × StoredRow) : ScanKey := ⟨[], e.1⟩

/-- The batches of a scan, as pages. -/
def scanPages (file : PageFile) (table : String) (state : TableMeta) (filters : List Filter)
    (orGroups : List (List Filter)) (order : ScanOrder) (after : Option ScanKey)
    (limit : UInt32) : Result (List Row × Option ScanKey) := do
  let batch ← scanBatch file table state filters orGroups order after limit
  pure (batch.rows, batch.lastKey)

omit [Crc32Fast] in
theorem mapM_keptRow {keep : List UInt8 → Result Bool} {visited : List (UInt64 × StoredRow)}
    (hid : ∀ e ∈ visited, extractId e.2.row = .ok e.1) :
    (visited.filterMap (keptRow keep)).mapM (fun r => Row.fromRaw r.2) =
      .ok (visited.filterMap (takenRow keep)) := by
  rw [Except.mapM_eq_ok_iff]
  induction visited with
  | nil => exact .nil
  | cons e visited ih =>
      rw [List.forall_mem_cons] at hid
      by_cases hpass : passes (keep e.2.row) = true
      · have hkept : keptRow keep e = some (rowOf e) := if_pos hpass
        have htaken : takenRow keep e = some (toRow e) := if_pos hpass
        rw [List.filterMap_cons_some hkept, List.filterMap_cons_some htaken]
        exact .cons (fromRaw_kept hid.1) (ih hid.2)
      · have hkept : keptRow keep e = none := if_neg hpass
        have htaken : takenRow keep e = none := if_neg hpass
        rw [List.filterMap_cons_none hkept, List.filterMap_cons_none htaken]
        exact ih hid.2

/-- **What a batch is**: it has visited the first rows beyond its bound and returns those that
pass.  Where it left rows, it is full, and its token names the last row it visited. -/
theorem RowTree.scanBatch (h : RowTree file state.rootPage leaves branches)
    (hclean : file.writeState = ⟨∅, 0⟩) (hzero : ∀ l ∈ leaves, l.page ≠ 0) (hlimit : limit ≠ 0)
    {rows : List Row} {next : Option ScanKey}
    (hpage : scanPages file table state filters orGroups ⟨.primaryKey, dir⟩ after limit =
      .ok (rows, next)) :
    ∃ visited rest, beyondRows leaves dir (after.map ScanKey.rowid) = visited ++ rest ∧
      (∀ e ∈ visited, ∃ b, scanTest state filters orGroups e.2.row = .ok b) ∧
      rows = visited.filterMap (takenRow (scanTest state filters orGroups)) ∧
      rows.length ≤ limit.toNat ∧
      (rest = [] ∧ next = none ∨ rest ≠ [] ∧ rows.length = limit.toNat ∧
        ∃ e ∈ visited.getLast?, next = some (rowToken e)) := by
  unfold scanPages BoogyDb.scanBatch at hpage
  dsimp only at hpage
  rw [h.scanFrom hclean hzero hlimit] at hpage
  obtain ⟨batch, hbatch, hret⟩ := bind_eq_ok.mp hpage
  obtain ⟨⟨raw, last⟩, hscan, hrows⟩ := bind_eq_ok.mp hbatch
  obtain ⟨⟨res, done⟩, hvisit, hres⟩ := bind_eq_ok.mp hscan
  cases hres
  obtain ⟨visited, rest, hsplit, hfine, htaken, hle, hend⟩ := visit_fromStep hvisit
  have hmem : ∀ e ∈ visited, e ∈ contents leaves := fun e he => by
    have hin : e ∈ beyondRows leaves dir (after.map ScanKey.rowid) := by
      rw [hsplit]
      exact List.mem_append_left _ he
    exact SortDir.mem_order.mp (List.mem_of_mem_filter hin)
  dsimp only at htaken hle hend hrows
  rw [List.nil_append] at htaken
  subst htaken
  rw [mapM_keptRow fun e he => (h.kept e (hmem e he)).id, ok_bind] at hrows
  cases hrows
  cases hret
  have hsame : (visited.filterMap (takenRow (scanTest state filters orGroups))).length =
      (visited.filterMap (keptRow (scanTest state filters orGroups))).length := by
    have hmap : visited.filterMap (takenRow (scanTest state filters orGroups)) =
        (visited.filterMap (keptRow (scanTest state filters orGroups))).map
          fun r => (⟨r.1, r.2⟩ : Row) := by
      rw [List.map_filterMap]
      refine List.filterMap_congr fun e _ => ?_
      rw [takenRow, keptRow]
      split <;> rfl
    rw [hmap, List.length_map]
  refine ⟨visited, rest, hsplit, hfine, rfl, hsame.trans_le (hle (Nat.zero_le _)), ?_⟩
  rcases hend with ⟨hnil, htoken⟩ | ⟨hne, hfull, htoken, hlast⟩
  · exact .inl ⟨hnil, by rw [htoken]; rfl⟩
  refine .inr ⟨hne, hsame.trans (Nat.le_antisymm (hle (Nat.zero_le _)) hfull), ?_⟩
  -- the batch is not empty, so there is a last row
  have hpos : 0 < limit.toNat := Nat.pos_of_ne_zero fun hz => hlimit (UInt32.toNat_inj.mp hz)
  obtain ⟨init, e, rfl⟩ : ∃ init e, visited = init ++ [e] := by
    rcases List.eq_nil_or_concat visited with rfl | ⟨init, e, heq⟩
    · exact absurd hfull (Nat.not_le_of_lt hpos)
    · exact ⟨init, e, by rw [heq, List.concat_eq_append]⟩
  have hgot : (init ++ [e]).getLast? = some e := by simp
  refine ⟨e, hgot, ?_⟩
  dsimp only
  rw [htoken, List.filterMap_append, List.filterMap_cons_some (hlast e hgot), List.filterMap_nil,
    List.getLast?_append]
  rfl

/-- A batch goes through when the predicate does. -/
theorem RowTree.scanBatch_ok (h : RowTree file state.rootPage leaves branches)
    (hclean : file.writeState = ⟨∅, 0⟩) (hzero : ∀ l ∈ leaves, l.page ≠ 0) (hlimit : limit ≠ 0)
    (hfine : ∀ e ∈ contents leaves, ∃ b, scanTest state filters orGroups e.2.row = .ok b) :
    ∃ page, scanPages file table state filters orGroups ⟨.primaryKey, dir⟩ after limit =
      .ok page := by
  have hmem : ∀ e ∈ beyondRows leaves dir (after.map ScanKey.rowid), e ∈ contents leaves :=
    fun e he => SortDir.mem_order.mp (List.mem_of_mem_filter he)
  obtain ⟨⟨res, done⟩, hvisit⟩ := @visit_fromStep_ok (scanTest state filters orGroups)
    limit.toNat (beyondRows leaves dir (after.map ScanKey.rowid))
    (fun e he => hfine e (hmem e he)) ([], none)
  obtain ⟨raw, token⟩ := res
  obtain ⟨visited, rest, hsplit, -, htaken, -, -⟩ := visit_fromStep hvisit
  dsimp only at htaken
  rw [List.nil_append] at htaken
  subst htaken
  have hrows := @mapM_keptRow (scanTest state filters orGroups) visited fun e he =>
    (h.kept e (hmem e (by rw [hsplit]; exact List.mem_append_left _ he))).id
  have hscan := h.scanFrom hclean hzero hlimit (scanTest state filters orGroups) dir
    (after.map ScanKey.rowid)
  rw [hvisit, ok_bind] at hscan
  refine ⟨(visited.filterMap (takenRow (scanTest state filters orGroups)),
    token.map fun rowid => ⟨[], rowid⟩), ?_⟩
  unfold scanPages BoogyDb.scanBatch
  dsimp only
  show ((BTreeReader.scanFrom _ _ _ _ _ (scanTest state filters orGroups) >>= _) >>= _) = _
  rw [hscan, ok_bind]
  dsimp only
  rw [hrows]
  rfl

/-- **The batches of a scan page through the rows.** -/
theorem RowTree.scans (h : RowTree file state.rootPage leaves branches)
    (hclean : file.writeState = ⟨∅, 0⟩) (hzero : ∀ l ∈ leaves, l.page ≠ 0) (table : String)
    (filters : List Filter) (orGroups : List (List Filter)) (dir : SortDir) :
    Scans (scanPages file table state filters orGroups ⟨.primaryKey, dir⟩)
      (dir.order (contents leaves))
      (fun after => beyondRows leaves dir (after.map ScanKey.rowid))
      (takenRow (scanTest state filters orGroups)) rowToken
      (fun e => ∃ b, scanTest state filters orGroups e.2.row = .ok b) (· ≠ 0) where
  start := beyondRows_none
  resume _ _ _ hsplit := beyondRows_some h.tree.ordered.keysIncrease hsplit
  page after limit rows next hlimit hpage := by
    obtain ⟨visited, rest, hsplit, hfine, hrows, -, hend⟩ := h.scanBatch hclean hzero hlimit hpage
    refine ⟨visited, rest, hsplit, ⟨hrows, ?_, ?_⟩, hfine⟩
    · rintro rfl
      rcases hend with ⟨hnil, -⟩ | ⟨-, -, e, -, htoken⟩
      · exact hnil
      · cases htoken
    · rintro key rfl
      rcases hend with ⟨-, hnone⟩ | ⟨-, -, e, he, htoken⟩
      · cases hnone
      · exact ⟨e, he, (Option.some.inj htoken).symm⟩
  total after limit hlimit hfine := h.scanBatch_ok hclean hzero hlimit fun e he =>
    hfine e (SortDir.mem_order.mpr he)

end

/-! ## Complete walks -/

/-- The file keeps the rows of `m` below `root`, on pages behind page 0. -/
structure RowsKept [Crc32Fast] (file : PageFile) (root : ℕ) (m : UInt64 → Option (List UInt8)) :
    Prop where
  clean : file.writeState = ⟨∅, 0⟩
  rows : ∃ P, RowsAt root m file P ∧ 0 ∉ P

/-- `rows` are the rows beyond the bound, in the order of a scan. -/
structure InOrder (m : UInt64 → Option (List UInt8)) (dir : SortDir) (after : Option UInt64)
    (rows : List Row) : Prop where
  sorted : rows.Pairwise fun a b => dir.Precedes a.id b.id
  mem_iff : ∀ row, row ∈ rows ↔ m row.id = some row.data ∧ dir.beyond after row.id = true

section

variable [Crc32Fast] {file : PageFile} {state : TableMeta} {m : UInt64 → Option (List UInt8)}

/-- The walk from batch to batch ends, with the rows that pass the predicate, each once and in
order.  A batch is not larger than its limit, and it has no token exactly when it left no row
behind the last one it visited. -/
structure CompleteWalk (file : PageFile) (table : String) (state : TableMeta)
    (m : UInt64 → Option (List UInt8)) (filters : List Filter) (orGroups : List (List Filter))
    (dir : SortDir) (limits : ℕ → UInt32) : Prop where
  walk : ∃ pages, PageWalk (scanPages file table state filters orGroups ⟨.primaryKey, dir⟩)
      limits none pages ∧
    pages.flatten.Pairwise (fun a b => dir.Precedes a.id b.id) ∧
    (∀ row, row ∈ pages.flatten ↔
      m row.id = some row.data ∧ scanTest state filters orGroups row.data = .ok true) ∧
    ∀ i rows, pages[i]? = some rows → rows.length ≤ (limits i).toNat
  ends : ∀ after limit rows next, limit ≠ 0 →
    scanPages file table state filters orGroups ⟨.primaryKey, dir⟩ after limit = .ok (rows, next) →
    ∃ visited rest, InOrder m dir (after.map ScanKey.rowid) (visited ++ rest) ∧
      rows = (visited.filter fun row => passes (scanTest state filters orGroups row.data)) ∧
      (next = none ↔ rest = [])

omit [Crc32Fast] in
theorem inOrder_beyondRows {leaves : List (Leaf UInt64 StoredRow)}
    (hrep : Represents (rowsIn leaves) m) (dir : SortDir) (after : Option UInt64) :
    InOrder m dir after ((beyondRows leaves dir after).map toRow) where
  sorted := by
    have hinc : KeysIncrease (rowsIn leaves) := hrep.increase
    rw [KeysIncrease, rowsIn, List.pairwise_map] at hinc
    exact List.pairwise_map.mpr ((order_contents_pairwise hinc dir).filter _)
  mem_iff row := by
    rw [List.mem_map, ← hrep.mem_iff]
    constructor
    · rintro ⟨e, he, rfl⟩
      obtain ⟨he, hbeyond⟩ := List.mem_filter.mp he
      exact ⟨List.mem_map_of_mem (SortDir.mem_order.mp he), hbeyond⟩
    · rintro ⟨hrow, hbeyond⟩
      obtain ⟨e, he, heq⟩ := List.mem_map.mp hrow
      obtain ⟨hid, hdata⟩ := Prod.mk.inj heq
      obtain ⟨id, data⟩ := row
      obtain rfl : e.1 = id := hid
      obtain rfl : e.2.row = data := hdata
      exact ⟨e, List.mem_filter.mpr ⟨SortDir.mem_order.mpr he, hbeyond⟩, rfl⟩

omit [Crc32Fast] in
theorem filterMap_takenRow (keep : List UInt8 → Result Bool) (entries : List (UInt64 × StoredRow)) :
    entries.filterMap (takenRow keep) =
      (entries.map toRow).filter fun row => passes (keep row.data) := by
  induction entries with
  | nil => rfl
  | cons e entries ih =>
      rw [List.map_cons]
      by_cases hpass : passes (keep e.2.row) = true
      · have htaken : takenRow keep e = some (toRow e) := if_pos hpass
        rw [List.filterMap_cons_some htaken, ih]
        exact (List.filter_cons_of_pos (p := fun row : Row => passes (keep row.data)) hpass).symm
      · have htaken : takenRow keep e = none := if_neg hpass
        rw [List.filterMap_cons_none htaken, ih]
        exact (List.filter_cons_of_neg (p := fun row : Row => passes (keep row.data)) hpass).symm

/-- The leaves of a table that keeps its rows. -/
theorem RowsKept.exists_tree (h : RowsKept file state.rootPage m) :
    ∃ leaves branches, RowTree file state.rootPage leaves branches ∧
      Represents (rowsIn leaves) m ∧ file.writeState = ⟨∅, 0⟩ ∧ ∀ l ∈ leaves, l.page ≠ 0 := by
  obtain ⟨hclean, P, ⟨leaves, branches, htree, hrep, rfl⟩, hpage⟩ := h
  refine ⟨leaves, branches, htree, hrep, hclean, fun l hl hz => ?_⟩
  refine hpage (.inl (List.mem_append_left _ ?_))
  rw [← hz]
  exact List.mem_map_of_mem hl

omit [Crc32Fast] in
/-- A test goes through on every row exactly when it does on every entry. -/
theorem forall_ok_iff {leaves : List (Leaf UInt64 StoredRow)}
    {keep : List UInt8 → Result Bool} (h : Represents (rowsIn leaves) m) :
    (∀ id row, m id = some row → ∃ b, keep row = .ok b) ↔
      ∀ e ∈ contents leaves, ∃ b, keep e.2.row = .ok b := by
  constructor
  · exact fun hall e he => hall e.1 e.2.row ((h.mem_iff _ _).mp (List.mem_map_of_mem he))
  · intro hall id row hrow
    obtain ⟨e, he, heq⟩ := List.mem_map.mp ((h.mem_iff id row).mpr hrow)
    rw [← (Prod.mk.inj heq).2]
    exact hall e he

/-- A walk that ends has evaluated the predicate on every row. -/
theorem CompleteWalk.goes_through {table : String} {filters : List Filter}
    {orGroups : List (List Filter)} {limits : ℕ → UInt32} (h : RowsKept file state.rootPage m)
    (hlimits : ∀ i, limits i ≠ 0)
    (hcomplete : CompleteWalk file table state m filters orGroups .asc limits) :
    ∀ id row, m id = some row → ∃ b, scanTest state filters orGroups row = .ok b := by
  obtain ⟨leaves, branches, htree, hrep, hclean, hzero⟩ := h.exists_tree
  obtain ⟨pages, hwalk, -⟩ := hcomplete.walk
  have hseen : SortDir.asc.order (contents leaves) = [] ++ beyondRows leaves .asc none :=
    beyondRows_none.symm
  have hall := (htree.scans hclean hzero table filters orGroups .asc).fine_of_walk hlimits hwalk
    hseen
  rw [Option.map_none, beyondRows_none] at hall
  exact (forall_ok_iff hrep).mpr hall

/-- **Paging in primary-key order is complete exactly when the predicate goes through on every
row of the table.** -/
theorem primary_key_walk_complete_iff (h : RowsKept file state.rootPage m) (table : String)
    (filters : List Filter) (orGroups : List (List Filter)) :
    (∀ dir limits, (∀ i, limits i ≠ 0) →
      CompleteWalk file table state m filters orGroups dir limits) ↔
        ∀ id row, m id = some row → ∃ b, scanTest state filters orGroups row = .ok b := by
  have hone : (1 : UInt32) ≠ 0 := by decide
  constructor
  · exact fun hcomplete =>
      CompleteWalk.goes_through h (fun _ => hone) (hcomplete .asc (fun _ => 1) fun _ => hone)
  obtain ⟨leaves, branches, htree, hrep, hclean, hzero⟩ := h.exists_tree
  intro hfine dir limits hlimits
  have hall := (forall_ok_iff hrep).mp hfine
  constructor
  · obtain ⟨pages, hpages, hrows⟩ :=
      ((htree.scans hclean hzero table filters orGroups dir).walk_iff ⟨1, by decide⟩).mpr
        (fun e he => hall e (SortDir.mem_order.mp he)) limits hlimits
    have horder := inOrder_beyondRows hrep dir none
    rw [beyondRows_none] at horder
    rw [filterMap_takenRow] at hrows
    refine ⟨pages, hpages, ?_, fun row => ?_, ?_⟩
    · rw [hrows]
      exact horder.sorted.filter _
    · rw [hrows, List.mem_filter, horder.mem_iff]
      show (_ ∧ true = true) ∧ _ ↔ _
      rw [and_iff_left rfl]
      refine and_congr_right fun hrow => ?_
      obtain ⟨b, hb⟩ := hfine _ _ hrow
      rw [hb, passes]
      exact ⟨fun hb' => by rw [hb'], fun hok => Except.ok.inj hok⟩
    · refine hpages.getElem? (P := fun limit rows => rows.length ≤ limit.toNat)
        fun after i rows next hscan => ?_
      obtain ⟨-, -, -, -, -, hle, -⟩ := htree.scanBatch hclean hzero (hlimits i) hscan
      exact hle
  · intro after limit rows next hlimit hscan
    obtain ⟨visited, rest, hsplit, -, hrows, -, hend⟩ := htree.scanBatch hclean hzero hlimit hscan
    refine ⟨visited.map toRow, rest.map toRow, ?_, ?_, ?_⟩
    · rw [← List.map_append, ← hsplit]
      exact inOrder_beyondRows hrep dir _
    · rw [hrows, filterMap_takenRow]
    · rw [List.map_eq_nil_iff]
      rcases hend with ⟨hnil, hnone⟩ | ⟨hne, -, e, -, htoken⟩
      · exact ⟨fun _ => hnil, fun _ => hnone⟩
      · refine ⟨fun hnone => ?_, fun hnil => absurd hnil hne⟩
        rw [htoken] at hnone
        cases hnone

end

/-! ## A walk that fails -/

/-- Every table that keeps its rows is paged through completely. -/
def PrimaryKeyWalksComplete [Crc32Fast] : Prop :=
  ∀ (file : PageFile) (state : TableMeta) (m : UInt64 → Option (List UInt8)),
    RowsKept file state.rootPage m → ∀ table filters orGroups dir limits, (∀ i, limits i ≠ 0) →
      CompleteWalk file table state m filters orGroups dir limits

/-- The data of the last column starts behind byte 65536. -/
def wideColumns : List Column :=
  [(0, .blob (List.replicate 100 0)), (1, .blob (List.replicate 65500 0)), (2, .null)]

theorem dataOffset_blobs (x y : List UInt8) :
    dataOffset [(0, .blob x), (1, .blob y), (2, .null)] 1 = x.length + 5 ∧
      dataOffset [(0, .blob x), (1, .blob y), (2, .null)] 2 = x.length + y.length + 10 := by
  unfold dataOffset columnData
  simp only [List.take_succ_cons, List.take_zero, List.flatMap_cons, List.flatMap_nil,
    List.length_append, List.length_nil, encodeValue, List.length_cons, length_leBytes]
  omega

theorem length_columnData_blobs (x y : List UInt8) :
    (columnData [(0, .blob x), (1, .blob y), (2, .null)]).length = x.length + y.length + 11 := by
  unfold columnData
  simp only [List.flatMap_cons, List.flatMap_nil, List.length_append, List.length_nil, encodeValue,
    List.length_cons, length_leBytes]
  omega

theorem dataOffset_wide : dataOffset wideColumns 1 = 105 ∧ dataOffset wideColumns 2 = 65610 := by
  have hoffset := dataOffset_blobs (List.replicate 100 0) (List.replicate 65500 0)
  rwa [List.length_replicate, List.length_replicate] at hoffset

theorem length_columnData_wide : (columnData wideColumns).length = 65611 := by
  have hlen := length_columnData_blobs (List.replicate 100 0) (List.replicate 65500 0)
  rwa [List.length_replicate, List.length_replicate] at hlen

/-- Its offset wraps around, and the bytes of the column before it end before they start. -/
theorem extractColumnRaw_wide (rowid : UInt64) :
    extractColumnRaw (encodeRow rowid wideColumns) 1 = panic := by
  have hsorted : sortColumns wideColumns = wideColumns := sortColumns_eq_self (by
    simp only [wideColumns, List.pairwise_cons]
    decide)
  have hlen := length_encodeRow rowid wideColumns
  have hcount : wideColumns.length = 3 := rfl
  have h1 : 1 < (sortColumns wideColumns).length := by rw [hsorted]; decide
  have h2 : 2 < (sortColumns wideColumns).length := by rw [hsorted]; decide
  have hstart := entryOffset_encodeRow rowid wideColumns h1
  have hend := entryOffset_encodeRow rowid wideColumns h2
  rw [hsorted, dataOffset_wide.1] at hstart
  rw [hsorted, dataOffset_wide.2] at hend
  have hprobe : probeColumn (encodeRow rowid wideColumns) 1 1 = .ok .eq := by
    have hid := entryColId_encodeRow rowid wideColumns h1
    have hcol : (sortColumns wideColumns)[1].1 = 1 := by
      simp only [hsorted]
      rfl
    rw [probeColumn, ensureBytes_ok (by rw [hlen, hcount, dirStart]; omega), ok_bind, hid, ok_bind,
      hcol]
    rfl
  have hsearch : bsearch (probeColumn (encodeRow rowid wideColumns) 1) 0 3 = .ok (1, true) := by
    rw [bsearch, if_pos (by decide)]
    simp only [Nat.zero_add, Nat.sub_zero, Nat.reduceDiv, hprobe]
  unfold extractColumnRaw
  rw [ensureBytes_ok (by omega), ok_bind, ensureBytes_ok (by omega), ok_bind,
    readNumCols_encodeRow, ok_bind, hcount, if_neg (by decide)]
  dsimp only
  rw [show 3 % 65536 = 3 from rfl, hsearch, ok_bind]
  dsimp only
  rw [if_pos rfl, hstart, ok_bind, if_pos (by decide), hend, ok_bind]
  rfl

def wideTable : TableMeta :=
  { TableMeta.new "t" 1 [⟨"a", .blob, true, false, none, false⟩, ⟨"b", .blob, true, false, none,
      false⟩, ⟨"c", .integer, true, false, none, false⟩] 1 with rowCount := 1, nextRowid := 2 }

/-- A table with this row as its only one. -/
theorem exists_wide_table : letI := crc32Ieee
    ∃ file : PageFile, RowsKept file wideTable.rootPage
      (Function.update (fun _ => none) 1 (some (encodeRow 1 wideColumns))) := by
  let := crc32Ieee
  have hid : extractId (encodeRow 1 wideColumns) = .ok 1 := by
    rw [encodeRow_eq]
    exact extractId_append 1 _
  have hlen := length_encodeRow 1 wideColumns
  have hdata := length_columnData_wide
  have hcount : wideColumns.length = 3 := rfl
  obtain ⟨file, P, hclean, hrows, hzero⟩ := exists_long_row hid
    (by rw [hlen, hdata, hcount]; decide) (by rw [hlen, hdata, hcount]; decide)
  exact ⟨file, hclean, P, hrows, hzero⟩

/-- Three rows with a number in front of 1500 bytes, of which two share a leaf. -/
def numberedRows : List (UInt64 × List UInt8) :=
  [1, 2, 3].map fun id => (id, encodeRow id [(0, .blob (id.toUInt8 :: List.replicate 1500 0))])

def numberedTable (root : ℕ) : TableMeta :=
  { TableMeta.new "t" 1 [⟨"b", .blob, true, false, none, false⟩] root with
    rowCount := 3, nextRowid := 4 }

/-- The rows by their ids. -/
def numberedMap : UInt64 → Option (List UInt8) :=
  insertedMap numberedRows fun _ => none

theorem storable_numberedRows : ∀ entry ∈ numberedRows, Storable entry.1 entry.2 := by
  have hplain : ∀ entry ∈ numberedRows, entry.2.length ≤ maxReassembleSize ∧
      hasOverflow entry.2 = false := by decide +kernel
  intro entry hmem
  obtain ⟨hle, hno⟩ := hplain entry hmem
  obtain ⟨id, -, rfl⟩ := List.mem_map.mp hmem
  refine ⟨?_, hle, fun _ => hno⟩
  rw [encodeRow_eq]
  exact extractId_append id _

theorem numberedRows_splitsRoot : letI := crc32Ieee
    splitsRoot numberedRows secondTree = true := by
  decide +kernel

/-- A committed table with these rows on two leaves. -/
theorem exists_numbered_table : letI := crc32Ieee
    ∃ (file : PageFile) (root : ℕ), root ≠ secondTree.1 ∧ RowsKept file root numberedMap := by
  let := crc32Ieee
  obtain ⟨root, g, afterImages, file, htree, hsplit, hcommit⟩ :=
    exists_of_splitsRoot numberedRows_splitsRoot
  obtain ⟨-, P, hkept, hzero⟩ := rowsAt_inserted storable_numberedRows htree hcommit
  exact ⟨file, root, hsplit, (commit_eq hcommit).2.1, P, hkept, hzero⟩

/-- Rows that pass a filter and others, one row a batch. -/
theorem primary_key_walk_complete_numbered : letI := crc32Ieee
    ∃ (file : PageFile) (root : ℕ), root ≠ secondTree.1 ∧ RowsKept file root numberedMap ∧
      ∀ dir, CompleteWalk file "t" (numberedTable root) numberedMap
        [⟨"b", .gt, .blob [1, 1], none⟩] [] dir fun _ => 1 := by
  let := crc32Ieee
  obtain ⟨file, root, hroot, hkept⟩ := exists_numbered_table
  have hfine : ∀ entry ∈ numberedRows, (scanTest (numberedTable 0)
      [⟨"b", .gt, .blob [1, 1], none⟩] [] entry.2).toOption.isSome := by decide +kernel
  refine ⟨file, root, hroot, hkept, fun dir => (@primary_key_walk_complete_iff _ file
    (numberedTable root) _ hkept "t" _ []).mpr (fun id row hrow => ?_) dir _ fun _ => by decide⟩
  rcases mem_of_insertedMap hrow with hnone | hmem
  · cases hnone
  · have hsome := hfine _ hmem
    change ∃ b, scanTest (numberedTable 0) _ [] row = .ok b
    cases htest : scanTest (numberedTable 0) [⟨"b", .gt, .blob [1, 1], none⟩] [] row with
    | ok b => exact ⟨b, rfl⟩
    | error e =>
        rw [htest] at hsome
        cases hsome

/-- **Not every table is paged through**: the predicate looks at a column of a row that is
longer than its offsets can say. -/
theorem not_primary_key_walks_complete : ¬ @PrimaryKeyWalksComplete crc32Ieee := by
  let := crc32Ieee
  intro h
  obtain ⟨file, hkept⟩ := exists_wide_table
  let isNull : Filter := ⟨"b", .isNull, .null, none⟩
  have hone : (1 : UInt32) ≠ 0 := by decide
  obtain ⟨b, hb⟩ := CompleteWalk.goes_through hkept (fun _ => hone)
    (h file wideTable _ hkept "t" [isNull] [] .asc (fun _ => 1) fun _ => hone) 1 _
    (Function.update_self ..)
  have hpanic : scanTest wideTable [isNull] [] (encodeRow 1 wideColumns) = panic := by
    unfold scanTest rowPasses
    show (List.allM (m := Result) (filterMatchesRow _ _ _) [isNull] >>= _) = _
    rw [List.allM, filterMatchesRow, if_neg (by decide)]
    show ((columnMatches (encodeRow 1 wideColumns) 1 _ isNull >>= _) >>= _) = _
    rw [columnMatches, extractColumnRaw_wide]
    rfl
  rw [hpanic] at hb
  cases hb

end BoogyDb
