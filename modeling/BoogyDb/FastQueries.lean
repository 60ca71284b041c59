import BoogyDb.CollectedRows
import BoogyDb.IndexKeyOrder
import BoogyDb.Queries
import BoogyDb.ReachedTables

/-!
# The fast paths of a query

Two paths of a query read less than a predicate scan: one asks an index for the ids of the rows,
one evaluates a single filter on the cells of the leaves.  Both answer as the query is defined
(`FastAnswers`), where

* the index is on one column, whose values and the values of the filter are of the type of the
  column, are not told apart by their keys only, and have no default behind them (`Indexes`);
* the rows are whole in their leaves (`WholeRows`).

The index path stops after a page of keys, before the other filters are evaluated, so such a query
has one filter only (`Bounded`).
-/

namespace BoogyDb

open ByteOrder Bytes Wp WriteGuard FencedTree Ownership StopLoop

/-! ## Values -/

/-- The value is not a zero of the reals: the two zeros are equal, but their keys differ. -/
def Value.NotZero (v : Value) : Prop := ∀ bits, v = .real bits → Float64.orderKey bits ≠ 0

/-- The values that a filter looks for. -/
def Filter.candidates (f : Filter) : List Value :=
  if f.op = .isIn then f.inValues.getD [] else [f.value]

section

variable {t : ColumnType} {v w : Value} {f : Filter}

theorem Value.OfType.ne_null (h : v.OfType t) : v ≠ .null := by
  rintro rfl
  cases h.1

/-- A number that is not zero is told by its place in the order. -/
theorem sign_of_orderKey {a b : UInt64} (h : Float64.orderKey a = Float64.orderKey b)
    (hzero : Float64.orderKey b ≠ 0) :
    Float64.isSignNegative a = Float64.isSignNegative b := by
  unfold Float64.orderKey at h hzero
  cases ha : Float64.isSignNegative a <;> cases hb : Float64.isSignNegative b <;>
    simp only [ha, hb, if_true, if_false, Bool.false_eq_true] at h hzero ⊢ <;> omega

/-- **Equal values of one type are the same**, but for the zeros. -/
theorem compare_eq_iff_same (ht : t.Sortable) (hw : w.OfType t) (hv : v.OfType t)
    (hzero : v.NotZero) : w.compare v = some .eq ↔ w = v := by
  rcases hw.cases ht with ⟨rfl, i, rfl⟩ | ⟨rfl, a, rfl⟩ | ⟨rfl, s, rfl⟩
  · obtain ⟨-, j, rfl⟩ | ⟨h, -⟩ | ⟨h, -⟩ := hv.cases ht
    · rw [Value.compare, Option.some_inj, compare_eq_iff_eq, Int64.toInt_inj, Value.integer.injEq]
    · cases h
    · cases h
  · obtain ⟨h, -⟩ | ⟨-, b, rfl⟩ | ⟨h, -⟩ := hv.cases ht
    · cases h
    · have hcmp : (Value.real a).compare (.real b) =
          some (compare (Float64.orderKey a) (Float64.orderKey b)) := by
        have ha := hw.2 a rfl
        have hb := hv.2 b rfl
        simp [Value.compare, Float64.partialCmp, ha, hb]
      rw [hcmp, Option.some_inj, compare_eq_iff_eq, Value.real.injEq]
      constructor
      · intro hkey
        apply totalCmp_eq_eq
        rw [Float64.totalCmp, hkey, sign_of_orderKey hkey (hzero b rfl)]
        simp
      · rintro rfl
        rfl
    · cases h
  · obtain ⟨h, -⟩ | ⟨h, -⟩ | ⟨-, s', rfl⟩ := hv.cases ht
    · cases h
    · cases h
    · rw [Value.compare, Option.some_inj, compare_eq_eq_iff, Value.text.injEq]
      exact ⟨asBytes_injective, congrArg asBytes⟩

/-- An equality filter asks for one of its candidates. -/
theorem Filter.matches_iff (hop : f.op = .eq ∨ f.op = .isIn) :
    f.matches w = true ↔ ∃ v ∈ f.candidates, w.compare v = some .eq := by
  unfold Filter.matches Filter.candidates
  rcases hop with hop | hop
  · rw [hop, if_neg (by decide), if_neg (by decide)]
    simp only [List.mem_singleton, exists_eq_left, evalFilterOp]
    cases w.compare f.value with
    | none => simp
    | some o => cases o <;> simp [FilterOp.holds]
  · rw [if_pos hop, if_pos hop]
    cases f.inValues with
    | none => simp
    | some values => simp

end

/-! ## Keys of one column -/

/-- The index is on one column, and tells its values apart as a filter on the column does. -/
structure Indexes (state : TableMeta) (rows : RowList) (column : String) (idx : IndexMeta)
    (t : ColumnType) (c : UInt16) : Prop where
  found : state.findIndexForColumn column = some idx
  columns : idx.columns = [column]
  named : column ≠ autoIdCol
  colId : state.colId column = some c
  type : state.firstType column = some t
  sortable : t.Sortable
  /-- A row has a value of the type, or none; then no default stands in for it. -/
  stored : ∀ r ∈ rows, ∃ v, Reads r.2 c v ∧
    v.getD (absentValue state.colDefs c) = v.getD .null ∧
      (v.getD .null = .null ∨ (v.getD .null).OfType t ∧ (v.getD .null).ZeroFree)

/-- What the filter looks for can be looked up. -/
def Filter.LookedUp (f : Filter) (t : ColumnType) : Prop :=
  (f.op = .eq ∨ f.op = .isIn) ∧ ∀ v ∈ f.candidates, v.OfType t ∧ v.ZeroFree ∧ v.NotZero

/-- The value of a row in a column, `Null` where there is none. -/
def cellIn (c : UInt16) (r : UInt64 × List UInt8) : Value :=
  match extractColumn r.2 c with
  | .ok v => v.getD .null
  | .error _ => .null

section

variable {state : TableMeta} {rows : RowList} {f : Filter} {idx : IndexMeta} {t : ColumnType}
  {c : UInt16} {v : Value} {p : List UInt8} {r : UInt64 × List UInt8}

theorem Indexes.cell (h : Indexes state rows f.column idx t c) (hr : r ∈ rows) :
    (cellIn c r = .null ∨ (cellIn c r).OfType t ∧ (cellIn c r).ZeroFree) ∧
      filterMatchesRow state.colNameToId state.colDefs r.2 f = .ok (f.matches (cellIn c r)) ∧
      indexKey state idx.columns r.1 r.2 =
        .ok ((encodeValuePrefix t (cellIn c r)).map (· ++ toBeBytes r.1)) := by
  obtain ⟨v, hreads, hdefault, hv⟩ := h.stored r hr
  have hcell : cellIn c r = v.getD .null := by
    rw [cellIn, hreads.value]
  rw [hcell]
  refine ⟨hv, ?_, ?_⟩
  · have hname : state.colNameToId f.column = some c := h.colId
    rw [filterMatchesRow, if_neg h.named, hname]
    dsimp only
    rw [columnMatches_reads hreads, hdefault]
  · have hcols : resolveColumns state idx.columns = some [(c, t)] := by
      rw [h.columns, resolveColumns, List.mapM_cons, h.colId, h.type]
      rfl
    have hvals : indexValues [(c, t)] r.2 = .ok [(t, v.getD .null)] := by
      rw [indexValues, List.mapM_cons, hreads.value]
      rfl
    rw [indexKey, hcols]
    dsimp only
    rw [hvals, ok_bind, encodeCompositeIndexKey]
    unfold encodeCompositeValuePrefix
    cases encodeValuePrefix t (v.getD .null) with
    | none => rfl
    | some part => simp [encodeCompositeValuePrefix]

/-- The rows with a value, by the filter. -/
theorem Indexes.matches_iff (h : Indexes state rows f.column idx t c) (hf : f.LookedUp t)
    (hr : r ∈ rows) : f.matches (cellIn c r) = true ↔ cellIn c r ∈ f.candidates := by
  obtain ⟨hcell, -, -⟩ := h.cell hr
  rw [Filter.matches_iff hf.1]
  constructor
  · intro ⟨v, hv, heq⟩
    obtain ⟨hvt, -, hzero⟩ := hf.2 v hv
    rcases hcell with hnull | ⟨hwt, -⟩
    · rw [hnull] at heq
      cases v <;> first | exact absurd rfl hvt.ne_null | cases heq
    · rw [(compare_eq_iff_same h.sortable hwt hvt hzero).mp heq]
      exact hv
  · intro hmem
    obtain ⟨hvt, -, hzero⟩ := hf.2 _ hmem
    exact ⟨_, hmem, (compare_eq_iff_same h.sortable hvt hvt hzero).mpr rfl⟩

/-- **A key starts with the code of a value if and only if its row has the value.** -/
theorem Indexes.hasKey_iff (h : Indexes state rows f.column idx t c) (hr : r ∈ rows)
    (hvt : v.OfType t) (hv0 : v.ZeroFree) (hp : encodeValuePrefix t v = some p)
    {k : List UInt8} :
    (HasKey state idx r k ∧ p <+: k) ↔ cellIn c r = v ∧ k = p ++ toBeBytes r.1 := by
  obtain ⟨hcell, -, hkey⟩ := h.cell hr
  rw [HasKey, hkey, Except.ok.injEq, Option.map_eq_some_iff]
  constructor
  · intro ⟨⟨q, hq, hk⟩, hpre⟩
    rcases hcell with hnull | ⟨hwt, hw0⟩
    · rw [hnull] at hq
      cases t <;> cases hq
    · obtain ⟨p', q', hp', hq', hsorts⟩ := sorts_value h.sortable hvt hwt hv0 hw0
      obtain rfl := Option.some.inj (hp'.symm.trans hp)
      obtain rfl := Option.some.inj (hq'.symm.trans hq)
      rw [← hk] at hpre
      have hsame := eq_of_valueCmp h.sortable hvt hwt (hsorts.eq_of_prefix hpre)
      rw [← hsame, hp] at hq
      rw [← hk, Option.some.inj hq]
      exact ⟨hsame.symm, rfl⟩
  · intro ⟨hw, hk⟩
    rw [hw, hp, hk]
    exact ⟨⟨p, rfl, rfl⟩, List.prefix_append _ _⟩

theorem key_lt {a b : UInt64} (h : a < b) : p ++ toBeBytes a < p ++ toBeBytes b := by
  have hsorts := sorts_toBeBytes a b
  rw [compare_lt_iff_lt.mpr (UInt64.lt_iff_toNat_lt.mp h)] at hsorts
  exact (SortsBefore.append_left p hsorts).lt

/-- **A scan for a value lists the keys of the rows that have it**, in the order of their ids. -/
theorem Indexes.keys_eq (h : Indexes state rows f.column idx t c)
    (hids : rows.Pairwise fun r r' => r.1 < r'.1) (hvt : v.OfType t) (hv0 : v.ZeroFree)
    (hp : encodeValuePrefix t v = some p) {keys : List (List UInt8)}
    (hsorted : keys.Pairwise (· < ·))
    (hkeys : ∀ k, k ∈ keys ↔ k ∈ {k | ∃ r ∈ rows, HasKey state idx r k} ∧ p <+: k) :
    keys = (rows.filter fun r => cellIn c r = v).map fun r => p ++ toBeBytes r.1 := by
  apply List.Pairwise.eq_of_mem_iff hsorted
  · rw [List.pairwise_map]
    exact (hids.filter _).imp key_lt
  · intro k
    rw [hkeys, List.mem_map]
    simp only [Set.mem_ofPred_eq, List.mem_filter, decide_eq_true_eq]
    constructor
    · intro ⟨⟨r, hr, hkey⟩, hpre⟩
      obtain ⟨hw, hk⟩ := (h.hasKey_iff hr hvt hv0 hp).mp ⟨hkey, hpre⟩
      exact ⟨r, ⟨hr, hw⟩, hk.symm⟩
    · intro ⟨r, ⟨hr, hw⟩, hk⟩
      obtain ⟨hkey, hpre⟩ := (h.hasKey_iff hr hvt hv0 hp).mpr ⟨hw, hk.symm⟩
      exact ⟨⟨r, hr, hkey⟩, hpre⟩

/-- The row id is read back from a key of one column. -/
theorem extractRowid_key (ht : t.Sortable) (hvt : v.OfType t) (hp : encodeValuePrefix t v = some p)
    (id : UInt64) : extractRowid t (p ++ toBeBytes id) = .ok id := by
  have hlen : (toBeBytes id).length = 8 := length_beBytes _ _
  have hback : fromBeBytes (toBeBytes id) = id := by
    rw [fromBeBytes, toBeBytes, beNat_beBytes_of_lt id.toNat_lt, UInt64.ofNat_toNat]
  -- the id is what follows the code of the value
  have hread : ∀ n, p.length = n →
      bytesOf (p ++ toBeBytes id) n (n + 8) = .ok (toBeBytes id) := by
    intro n hn
    have hslice : slice (p ++ toBeBytes id) n (n + 8) = toBeBytes id := by
      apply @slice_eq_of_append _ p _ [] n (n + 8) _ hn.symm (by rw [hn, hlen])
      rw [List.append_nil]
    rw [bytesOf_ok (by omega) (by rw [List.length_append, hn, hlen]), hslice]
  rcases hvt.cases ht with ⟨rfl, i, rfl⟩ | ⟨rfl, bits, rfl⟩ | ⟨rfl, s, rfl⟩
  · have hp8 : p.length = 8 := by
      rw [← Option.some.inj hp]
      exact length_beBytes _ _
    rw [extractRowid, hread 8 hp8, ok_bind, hback]
    rfl
  · have hp8 : p.length = 8 := by
      rw [← Option.some.inj hp]
      exact length_beBytes _ _
    rw [extractRowid, hread 8 hp8, ok_bind, hback]
    rfl
  · have htotal : (p ++ toBeBytes id).length = p.length + 8 := by rw [List.length_append, hlen]
    rw [extractRowid, htotal, if_neg (by omega), Nat.add_sub_cancel, hread p.length rfl, ok_bind,
      hback]
    rfl

end

/-! ## Rows of an index -/

section

variable {rows l : RowList}

theorem pairwise_ids_nodup (hids : rows.Pairwise fun r r' => r.1 < r'.1) :
    (rows.map Prod.fst).Nodup := by
  rw [List.Nodup, List.pairwise_map]
  exact hids.imp ne_of_lt

/-- Rows are picked out by their ids. -/
theorem filter_ids (hids : rows.Pairwise fun r r' => r.1 < r'.1) (hsub : l.Sublist rows)
    {ids : List UInt64} (hmem : ∀ id, id ∈ ids ↔ id ∈ l.map Prod.fst) :
    rows.filter (fun r => r.1 ∈ ids) = l := by
  apply List.Pairwise.eq_of_mem_iff (r := fun r r' : UInt64 × List UInt8 => r.1 < r'.1)
    (hids.filter _) (hids.sublist hsub)
  intro r
  rw [List.mem_filter, decide_eq_true_eq, hmem]
  constructor
  · intro ⟨hr, hid⟩
    obtain ⟨r', hr', heq⟩ := List.mem_map.mp hid
    rwa [← List.inj_on_of_nodup_map (pairwise_ids_nodup hids) (hsub.subset hr') hr heq]
  · intro hr
    exact ⟨hsub.subset hr, List.mem_map_of_mem hr⟩

theorem mem_destutter'_ne {α : Type} [DecidableEq α] {a b : α} {l : List α} :
    a ∈ l.destutter' (· ≠ ·) b ↔ a = b ∨ a ∈ l := by
  induction l generalizing b with
  | nil => simp
  | cons x l ih =>
      rw [List.destutter'_cons]
      split
      · rw [List.mem_cons, ih, List.mem_cons]
      · rename_i heq
        rw [ih, List.mem_cons, ← not_not.mp heq, or_self_left]

/-- Leaving out repetitions in a row loses no element. -/
theorem mem_destutter {α : Type} [DecidableEq α] {a : α} {l : List α} :
    a ∈ l.destutter (· ≠ ·) ↔ a ∈ l := by
  cases l with
  | nil => simp
  | cons x l => rw [List.destutter_cons', mem_destutter'_ne, List.mem_cons]

end

/-- The rows with a value in the column. -/
def withValue (c : UInt16) (v : Value) (rows : RowList) : RowList :=
  rows.filter fun r => cellIn c r = v

/-- The rows that a filter on the column keeps. -/
def hits (c : UInt16) (f : Filter) (rows : RowList) : RowList :=
  rows.filter fun r => f.matches (cellIn c r)

/-- The rows that are asked for. -/
def upTo (need : Option ℕ) (l : RowList) : RowList :=
  match need with
  | none => l
  | some n => l.take n

/-- The rows that the index finds: a filter for several values is not cut. -/
def fetched (c : UInt16) (f : Filter) (need : Option ℕ) (rows : RowList) : RowList :=
  if f.op = .isIn then hits c f rows else upTo need (hits c f rows)

section

variable [Crc32Fast] {file : PageFile} {state : TableMeta} {rows : RowList} {f : Filter}
  {idx : IndexMeta} {t : ColumnType} {c : UInt16} {v : Value} {need : Option ℕ}

omit [Crc32Fast] in
theorem upTo_sublist (need : Option ℕ) (l : RowList) : (upTo need l).Sublist l := by
  cases need with
  | none => exact List.Sublist.refl l
  | some n => exact List.take_sublist n l

omit [Crc32Fast] in
theorem fetched_sublist : (fetched c f need rows).Sublist rows := by
  unfold fetched
  split
  · exact List.filter_sublist
  · exact (upTo_sublist _ _).trans List.filter_sublist

omit [Crc32Fast] in
theorem extractRowid_keys (ht : t.Sortable) (hvt : v.OfType t) {p : List UInt8}
    (hp : encodeValuePrefix t v = some p) (l : RowList) :
    (l.map fun r => p ++ toBeBytes r.1).mapM (extractRowid t) = .ok (l.map Prod.fst) := by
  rw [Except.mapM_eq_ok_iff, List.forall₂_map_right_iff, List.forall₂_map_left_iff,
    List.forall₂_same]
  exact fun r _ => extractRowid_key ht hvt hp r.1

/-- What the scans of an index say of a value. -/
theorem Indexes.scans (h : Indexes state rows f.column idx t c)
    (hids : rows.Pairwise fun r r' => r.1 < r'.1)
    (hscan : ScansAs file idx.rootPage {k | ∃ r ∈ rows, HasKey state idx r k})
    (hvt : v.OfType t) (hv0 : v.ZeroFree) :
    ∃ p, encodeValuePrefix t v = some p ∧
      IndexTreeReader.scanPrefix file idx.rootPage p =
        .ok ((withValue c v rows).map fun r => p ++ toBeBytes r.1) ∧
      IndexTreeReader.countPrefix file idx.rootPage p = .ok (withValue c v rows).length ∧
      ∀ n, 0 < n → IndexTreeReader.scanPrefixLimit file idx.rootPage p n =
        .ok (((withValue c v rows).take n).map fun r => p ++ toBeBytes r.1) := by
  obtain ⟨p, -, hp, -, -⟩ := sorts_value h.sortable hvt hvt hv0 hv0
  obtain ⟨keys, hsorted, hkeys, hall, hcount, hlimit⟩ := hscan p
  have hlist := h.keys_eq hids hvt hv0 hp hsorted hkeys
  refine ⟨p, hp, ?_, ?_, fun n hn => ?_⟩
  · rw [hall, hlist]
    rfl
  · rw [hcount, hlist, List.length_map]
    rfl
  · rw [hlimit n hn, hlist, ← List.map_take]
    rfl

omit [Crc32Fast] in
/-- The rows of an equality filter are those with its value. -/
theorem Indexes.hits_eq (h : Indexes state rows f.column idx t c) (hf : f.LookedUp t)
    (hop : f.op = .eq) : hits c f rows = withValue c f.value rows := by
  apply List.filter_congr
  intro r hr
  have hmatch := h.matches_iff hf hr
  rw [Filter.candidates, hop, if_neg (by decide), List.mem_singleton] at hmatch
  exact Bool.eq_iff_iff.mpr (hmatch.trans decide_eq_true_iff.symm)

/-- **What the index finds** are the ids of the rows that the filter keeps, or there are none. -/
theorem Indexes.foundIds (h : Indexes state rows f.column idx t c)
    (hids : rows.Pairwise fun r r' => r.1 < r'.1)
    (hscan : ScansAs file idx.rootPage {k | ∃ r ∈ rows, HasKey state idx r k})
    (hf : f.LookedUp t) (hneed : f.op = .eq → ∀ n, need = some n → 0 < n) :
    (indexRowids file idx.rootPage t f need = .ok none ∧ fetched c f need rows = []) ∨
      ∃ ids, indexRowids file idx.rootPage t f need = .ok (some ids) ∧
        ∀ id, id ∈ ids ↔ id ∈ (fetched c f need rows).map Prod.fst := by
  rcases hf.1 with hop | hop
  · -- one value
    have hne : f.op ≠ .isIn := by
      rw [hop]
      decide
    have hvalue : f.value ∈ f.candidates := by
      rw [Filter.candidates, if_neg hne]
      exact List.mem_singleton_self _
    obtain ⟨hvt, hv0, -⟩ := hf.2 f.value hvalue
    obtain ⟨p, hp, hall, -, hlimit⟩ := h.scans hids hscan hvt hv0
    right
    rw [fetched, if_neg hne, h.hits_eq hf hop, indexRowids, if_neg hne, hp]
    dsimp only
    cases need with
    | none =>
        rw [hall, ok_bind, extractRowid_keys h.sortable hvt hp, ok_bind]
        exact ⟨_, rfl, fun id => List.mem_insertionSort _⟩
    | some n =>
        dsimp only
        rw [hlimit n (hneed hop n rfl), ok_bind, extractRowid_keys h.sortable hvt hp, ok_bind]
        exact ⟨_, rfl, fun id => List.mem_insertionSort _⟩
  · -- several values
    rw [fetched, if_pos hop, indexRowids, if_pos hop]
    have hcandidates : f.candidates = f.inValues.getD [] := if_pos hop
    have hnone : f.candidates = [] → hits c f rows = [] := by
      intro hnil
      apply List.filter_eq_nil_iff.mpr
      intro r hr hmatch
      rw [h.matches_iff hf hr, hnil] at hmatch
      cases hmatch
    cases hvalues : f.inValues with
    | none =>
        rw [hvalues] at hcandidates
        exact .inl ⟨rfl, hnone hcandidates⟩
    | some values =>
        rw [hvalues, Option.getD_some] at hcandidates
        rw [← hcandidates]
        cases hcase : f.candidates with
        | nil => exact .inl ⟨rfl, hnone hcase⟩
        | cons v vs =>
            right
            dsimp only
            rw [← hcase]
            -- each value of the list is looked up on its own, and the ids are joined
            have hfound : ∀ look : Value → Result (List UInt64),
                (∀ v ∈ f.candidates, look v = .ok ((withValue c v rows).map Prod.fst)) →
                f.candidates.mapM look =
                  .ok (f.candidates.map fun v => (withValue c v rows).map Prod.fst) := by
              intro look hlook
              rw [Except.mapM_eq_ok_iff, List.forall₂_map_right_iff, List.forall₂_same]
              exact hlook
            rw [hfound, ok_bind]
            rotate_left
            · intro v hv
              obtain ⟨hvt, hv0, -⟩ := hf.2 v hv
              obtain ⟨p, hp, hall, -, -⟩ := h.scans hids hscan hvt hv0
              rw [hp]
              dsimp only
              rw [hall, ok_bind, extractRowid_keys h.sortable hvt hp]
            refine ⟨_, rfl, fun id => ?_⟩
            rw [mem_destutter, List.mem_insertionSort, List.mem_flatten]
            simp only [List.mem_map, exists_exists_and_eq_and, withValue, hits, List.mem_filter,
              decide_eq_true_eq]
            constructor
            · intro ⟨v, hv, r, ⟨hr, hw⟩, hid⟩
              exact ⟨r, ⟨hr, (h.matches_iff hf hr).mpr (hw ▸ hv)⟩, hid⟩
            · intro ⟨r, ⟨hr, hmatch⟩, hid⟩
              exact ⟨_, (h.matches_iff hf hr).mp hmatch, r, ⟨hr, rfl⟩, hid⟩

end

/-! ## Queries that an index answers -/

/-- What is read of a table besides its scans: rows by their ids. -/
structure Fetches [Crc32Fast] (file : PageFile) (state : TableMeta) (rows : RowList) : Prop where
  lists : Lists file state rows
  increase : rows.Pairwise fun r r' => r.1 < r'.1
  fetch : ∀ ids : List UInt64, ids.Pairwise (· ≤ ·) →
    BTreeReader.multiGetSorted file state.rootPage ids =
      .ok ((rows.filter fun r => r.1 ∈ ids).map Prod.snd)

/-- The index path stops after a page of keys; then it evaluates no other filter. -/
def Bounded (opts : FindOptions) (f : Filter) : Prop :=
  opts.canShortCircuit = true → f.op = .eq → opts.filters = [f] ∧ 0 < opts.skip + opts.take

section

variable [Crc32Fast] {file : PageFile} {state : TableMeta} {rows : RowList} {f : Filter}
  {idx : IndexMeta} {t : ColumnType} {c : UInt16} {opts : FindOptions} {res : FindResult}

omit [Crc32Fast] in
theorem indexCandidate_eq_some (h : indexCandidate state opts = some f) :
    opts.orGroups = [] ∧ f ∈ opts.filters := by
  unfold indexCandidate at h
  split at h
  · rename_i hgroups
    exact ⟨List.isEmpty_iff.mp hgroups, List.mem_of_find?_eq_some h⟩
  · cases h

omit [Crc32Fast] in
theorem allM_eq_true {t : Filter → Result Bool} {filters : List Filter}
    (h : filters.allM t = .ok true) : ∀ f ∈ filters, t f = .ok true := by
  induction filters with
  | nil => exact fun f hf => absurd hf List.not_mem_nil
  | cons f filters ih =>
      rw [List.allM] at h
      obtain ⟨b, hb, hrest⟩ := bind_eq_ok.mp h
      cases b with
      | false => cases hrest
      | true => exact List.forall_mem_cons.mpr ⟨hb, ih hrest⟩

omit [Crc32Fast] in
/-- Without groups the predicate is that all filters match. -/
theorem rowPasses_all (bytes : List UInt8) (filters : List Filter) :
    rowPasses state.colNameToId state.colDefs bytes filters [] =
      filters.allM (filterMatchesRow state.colNameToId state.colDefs bytes) := by
  unfold rowPasses
  cases filters.allM (filterMatchesRow state.colNameToId state.colDefs bytes) with
  | error e => rfl
  | ok b => cases b <;> rfl

omit [Crc32Fast] in
theorem passes_eq_true {x : Result Bool} : passes x = true ↔ x = .ok true := by
  cases x with
  | error e => simp [passes]
  | ok b => simp [passes]

/-- The rows that pass all filters. -/
def passingAll (state : TableMeta) (filters : List Filter) (l : RowList) : RowList :=
  l.filter fun r => passes (rowPasses state.colNameToId state.colDefs r.2 filters [])

omit [Crc32Fast] in
/-- A row that passes is kept by each filter. -/
theorem Indexes.matches_of_passes (h : Indexes state rows f.column idx t c) {filters : List Filter}
    (hf : f ∈ filters) {r : UInt64 × List UInt8} (hr : r ∈ rows)
    (hpass : passes (rowPasses state.colNameToId state.colDefs r.2 filters []) = true) :
    f.matches (cellIn c r) = true := by
  obtain ⟨-, hmatch, -⟩ := h.cell hr
  rw [passes_eq_true, rowPasses_all] at hpass
  have hone := allM_eq_true hpass f hf
  rw [hmatch] at hone
  exact Except.ok.inj hone

omit [Crc32Fast] in
theorem Indexes.passes_single (h : Indexes state rows f.column idx t c)
    {r : UInt64 × List UInt8} (hr : r ∈ rows) :
    passes (rowPasses state.colNameToId state.colDefs r.2 [f] []) = f.matches (cellIn c r) := by
  obtain ⟨-, hmatch, -⟩ := h.cell hr
  rw [rowPasses_all, List.allM, hmatch, ok_bind]
  cases f.matches (cellIn c r) <;> rfl

omit [Crc32Fast] in
/-- The rows that pass are among those that the filter of the index keeps. -/
theorem Indexes.passingAll_hits (h : Indexes state rows f.column idx t c) {filters : List Filter}
    (hf : f ∈ filters) :
    passingAll state filters (hits c f rows) = passingAll state filters rows := by
  unfold passingAll hits
  rw [List.filter_filter]
  apply List.filter_congr
  intro r hr
  rw [Bool.and_eq_left_iff_imp]
  exact h.matches_of_passes hf hr

omit [Crc32Fast] in
/-- If there is no other filter, they are all of them. -/
theorem Indexes.passingAll_single (h : Indexes state rows f.column idx t c) {l : RowList}
    (hsub : l.Sublist (hits c f rows)) : passingAll state [f] l = l := by
  apply List.filter_eq_self.mpr
  intro r hr
  obtain ⟨hrow, hmatch⟩ := List.mem_filter.mp (hsub.subset hr)
  rw [h.passes_single hrow]
  exact hmatch

omit [Crc32Fast] in
theorem fetched_sublist_hits {need : Option ℕ} :
    (fetched c f need rows).Sublist (hits c f rows) := by
  unfold fetched
  split
  · exact List.Sublist.refl _
  · exact upTo_sublist _ _

/-- How many keys of an index a query asks for. -/
def FindOptions.need (opts : FindOptions) : Option ℕ :=
  if opts.canShortCircuit then some (opts.skip + opts.take) else none

omit [Crc32Fast] in
/-- **Fetching only the first rows is not seen** in the page that is returned, nor in the total. -/
theorem Indexes.finish_fetched (h : Indexes state rows f.column idx t c)
    (hmem : f ∈ opts.filters) (hbounded : Bounded opts f) (hop : f.op = .eq ∨ f.op = .isIn) :
    finish state opts ((passingAll state opts.filters (fetched c f opts.need rows)).map rowRecord) =
      finish state opts ((passingAll state opts.filters rows).map rowRecord) := by
  rw [← h.passingAll_hits hmem]
  unfold fetched FindOptions.need
  rcases hop with hop | hop
  · rw [if_neg (by rw [hop]; decide)]
    by_cases hshort : opts.canShortCircuit = true
    · obtain ⟨hone, -⟩ := hbounded hshort hop
      rw [hone, h.passingAll_single (List.Sublist.refl _), if_pos hshort, upTo,
        h.passingAll_single (List.take_sublist _ _)]
      rw [FindOptions.canShortCircuit, Bool.and_eq_true, List.isEmpty_iff, Bool.not_eq_true']
        at hshort
      unfold finish
      rw [hshort.1, hshort.2, List.map_take]
      have hpage : ∀ l : List Row, opts.page (l.take (opts.skip + opts.take)) = opts.page l := by
        intro l
        unfold FindOptions.page
        rw [List.drop_take, Nat.add_sub_cancel_left, List.take_take, min_self]
      exact congrArg (fun rows => Except.ok (⟨rows, none⟩ : FindResult)) (hpage _)
    · rw [if_neg hshort, upTo]
  · rw [if_pos hop]

/-- The rows that a path of a query collected, cut to a page if they need no sorting. -/
def Collects (opts : FindOptions) (found : List Row) (x : Result Collected) : Prop :=
  ∃ paginated, (opts.sort = [] → paginated = true) ∧
    x = .ok ⟨if opts.sort.isEmpty then opts.page found else found, found.length, paginated⟩

theorem find_of_collects {found : List Row}
    (h : Collects opts found (collectMatching file state opts)) :
    find file state opts = finish state opts found := by
  obtain ⟨paginated, hpaged, hcollect⟩ := h
  rw [BoogyDb.find, hcollect, ok_bind, finish]
  cases hsort : opts.sort with
  | nil =>
      rw [hpaged hsort]
      rfl
  | cons key keys => rfl

/-- **The index path**: the rows with the ids that the index has, if they pass. -/
theorem Indexes.findByIndex (h : Indexes state rows f.column idx t c)
    (hreads : Fetches file state rows)
    (hscan : ScansAs file idx.rootPage {k | ∃ r ∈ rows, HasKey state idx r k})
    (hf : f.LookedUp t) (hmem : f ∈ opts.filters) (hbounded : Bounded opts f)
    (htests : ∀ r ∈ rows, ∃ b,
      rowPasses state.colNameToId state.colDefs r.2 opts.filters [] = .ok b) :
    Collects opts ((passingAll state opts.filters (fetched c f opts.need rows)).map rowRecord)
      (BoogyDb.findByIndex file state opts f) := by
  -- a limit is handed to the index only for one value, and `Bounded` keeps it above zero
  have hpos : f.op = .eq → ∀ n, opts.need = some n → 0 < n := by
    intro hop n hn
    unfold FindOptions.need at hn
    split at hn
    · rename_i hshort
      rw [← Option.some.inj hn]
      exact (hbounded hshort hop).2
    · cases hn
  unfold BoogyDb.findByIndex
  rw [h.found, h.type]
  change Collects _ _ (indexRowids file idx.rootPage t f opts.need >>= _)
  rcases h.foundIds hreads.increase hscan hf hpos with ⟨hnone, hempty⟩ | ⟨ids, hsome, hids⟩
  · -- nothing to look up
    rw [hnone, ok_bind, hempty]
    refine ⟨true, fun _ => rfl, ?_⟩
    cases opts.sort <;> simp [FindOptions.page, passingAll]
  · have hsub : (fetched c f opts.need rows).Sublist rows := fetched_sublist
    have hsorted := sorted_indexRowids hsome
    rw [hsome, ok_bind]
    dsimp only
    rw [hreads.fetch ids hsorted, ok_bind, filter_ids hreads.increase hsub hids]
    have hhits := @fetched_sublist_hits rows f c opts.need
    generalize fetched c f opts.need rows = l at *
    have hkept : (passingAll state opts.filters l).Sublist rows := List.filter_sublist.trans hsub
    have hrecords : ((passingAll state opts.filters l).map Prod.snd).mapM Row.fromRaw =
        .ok ((passingAll state opts.filters l).map rowRecord) := by
      rw [← (hreads.lists.ids.sublist hkept).fromRaw, List.mapM_map]
      rfl
    have hdone : Collects opts ((passingAll state opts.filters l).map rowRecord)
        (((passingAll state opts.filters l).map Prod.snd).mapM Row.fromRaw >>= fun rows =>
          if opts.sort.isEmpty then pure ⟨opts.page rows, rows.length, true⟩
          else pure ⟨rows, rows.length, false⟩) := by
      rw [hrecords, ok_bind]
      refine ⟨opts.sort.isEmpty, fun hsort => by rw [hsort]; rfl, ?_⟩
      cases opts.sort <;> rfl
    -- the rows are tested again when there are more filters than the one that the index answers
    by_cases hmany : 1 < opts.filters.length
    · have hraw : ((l.map Prod.snd).filterM fun bytes =>
          opts.filters.allM (filterMatchesRow state.colNameToId state.colDefs bytes)) =
            .ok ((passingAll state opts.filters l).map Prod.snd) := by
        rw [filterM_eq_ok_iff]
        refine ⟨fun bytes hbytes => ?_, ?_⟩
        · obtain ⟨r, hr, rfl⟩ := List.mem_map.mp hbytes
          obtain ⟨b, hb⟩ := htests r (hsub.subset hr)
          rw [rowPasses_all] at hb
          exact ⟨b, hb⟩
        · rw [List.filter_map, passingAll]
          congr 1
          apply List.filter_congr
          intro r _
          rw [rowPasses_all]
          rfl
      rw [if_pos hmany, hraw, ok_bind]
      exact hdone
    · -- then the filter of the index is the only one
      have hone : opts.filters = [f] := by
        obtain ⟨g, hg⟩ := List.length_eq_one_iff.mp
          (Nat.le_antisymm (Nat.le_of_not_lt hmany) (List.length_pos_of_mem hmem))
        rw [hg] at hmem ⊢
        rw [List.mem_singleton.mp hmem]
      rw [hone, h.passingAll_single hhits] at hdone ⊢
      rw [if_neg (by simp), pure_eq_ok, ok_bind]
      exact hdone

/-- **A query that an index answers.** -/
theorem Indexes.find (h : Indexes state rows f.column idx t c) (hreads : Fetches file state rows)
    (hscan : ScansAs file idx.rootPage {k | ∃ r ∈ rows, HasKey state idx r k})
    (hf : f.LookedUp t) (hcandidate : indexCandidate state opts = some f)
    (hbounded : Bounded opts f) (hans : queryAnswer state rows opts = .ok res) :
    find file state opts = .ok res := by
  obtain ⟨hgroups, hmem⟩ := indexCandidate_eq_some hcandidate
  obtain ⟨passing, hpassing, hres⟩ := answer_eq_ok hans
  rw [hgroups] at hpassing
  obtain ⟨htests, rfl⟩ := matching_eq_ok hpassing
  have hcollect := h.findByIndex hreads hscan hf hmem hbounded htests
  have hpath : collectMatching file state opts = BoogyDb.findByIndex file state opts f := by
    unfold collectMatching
    rw [hcandidate]
  rw [← hpath] at hcollect
  rw [find_of_collects hcollect, h.finish_fetched hmem hbounded hf.1]
  exact hres

/-- **A count that an index answers.** -/
theorem Indexes.count (h : Indexes state rows f.column idx t c) (hreads : Fetches file state rows)
    (hscan : ScansAs file idx.rootPage {k | ∃ r ∈ rows, HasKey state idx r k})
    (hf : f.LookedUp t) (hop : f.op = .eq) {passing : RowList}
    (hpassing : matching state [f] [] rows = .ok passing) :
    countWith file state [f] [] = .ok passing.length := by
  have hvalue : f.value ∈ f.candidates := by
    rw [Filter.candidates, hop, if_neg (by decide)]
    exact List.mem_singleton_self _
  obtain ⟨hvt, hv0, -⟩ := hf.2 f.value hvalue
  obtain ⟨p, hp, -, hcount, -⟩ := h.scans hreads.increase hscan hvt hv0
  have hindex : countByIndex file state f = some (.ok (withValue c f.value rows).length) := by
    rw [countByIndex, if_pos hop, h.found, h.type, ← hcount]
    show (encodeValuePrefix t f.value >>= _) = _
    rw [hp]
    rfl
  obtain ⟨-, hrows⟩ := matching_eq_ok hpassing
  have hkept : passing = withValue c f.value rows := by
    calc passing = passingAll state [f] rows := hrows
      _ = passingAll state [f] (hits c f rows) :=
        (h.passingAll_hits (List.mem_singleton_self f)).symm
      _ = hits c f rows := h.passingAll_single (List.Sublist.refl _)
      _ = withValue c f.value rows := h.hits_eq hf hop
  unfold BoogyDb.countWith
  dsimp only
  rw [hindex, hkept]
  rfl

end

/-! ## Queries that are answered on cells -/

/-- The filter is evaluated on cells: it is not for several values, and its column is there and
leads no index that answers it. -/
structure Filter.OnCells (f : Filter) (state : TableMeta) (c : UInt16) : Prop where
  op : f.op ≠ .isIn
  named : f.column ≠ autoIdCol
  colId : state.colId f.column = some c
  noIndex : f.op = .eq → state.findIndexForColumn f.column = none

/-- The rows are whole in their leaves, and can be read column by column. -/
structure WholeRows (rows : RowList) : Prop where
  whole : ∀ r ∈ rows, r.2.length < inlineDataLen ∧ Readable r.2
  few : rows.length < 2 ^ 32

section

variable [Crc32Fast] {file : PageFile} {state : TableMeta} {f : Filter} {c : UInt16}
  {leaves : List (Leaf UInt64 StoredRow)} {branches : List ℕ} {opts : FindOptions}
  {res : FindResult} {e : UInt64 × StoredRow}

/-- A short row is its own cell. -/
theorem Kept.inline_of_length {v : ℕ → Result Page} (h : Kept v e)
    (hlen : e.2.row.length < inlineDataLen) : hasOverflow (cellOf e) = false := by
  obtain ⟨id, row, cell, chain⟩ := e
  obtain ⟨hkept, -, -⟩ := h
  change row.length < inlineDataLen at hlen
  change hasOverflow cell = false
  dsimp only at hkept
  cases hkept with
  | inline h => exact h
  | overflow hchain hdata hle hlong => omega

/-- **The test on the cell is the test on the row.** -/
theorem RowTree.cellTest_eq (h : RowTree file state.rootPage leaves branches)
    (hclean : file.writeState = ⟨∅, 0⟩) (hf : f.OnCells state c)
    (hrows : WholeRows (rowsIn leaves)) (he : e ∈ contents leaves) :
    ∃ b, cellTest file c f.op f.value (absentValue state.colDefs c) e = .ok b ∧
      rowPasses state.colNameToId state.colDefs e.2.row [f] [] = .ok b := by
  have hinline : ∀ e ∈ contents leaves, hasOverflow (cellOf e) = false := fun e he =>
    (h.kept e he).inline_of_length (hrows.whole _ (List.mem_map_of_mem he)).1
  have hreads : TableReads file state leaves branches :=
    ⟨hclean, h, fun e he _ => (hrows.whole _ (List.mem_map_of_mem he)).2⟩
  obtain ⟨b, hfast, hrow, -⟩ := hreads.tests_agree he (hinline e he) hf.op hf.named hf.colId
  refine ⟨b, hfast, ?_⟩
  rw [rowTest] at hrow
  rw [rowPasses_all, List.allM, hrow, ok_bind]
  cases b <;> rfl

theorem RowTree.passing_cells (h : RowTree file state.rootPage leaves branches)
    (hclean : file.writeState = ⟨∅, 0⟩) (hf : f.OnCells state c)
    (hrows : WholeRows (rowsIn leaves)) :
    ((contents leaves).filter fun e =>
      passes (cellTest file c f.op f.value (absentValue state.colDefs c) e)).map rowOf =
        passingAll state [f] (rowsIn leaves) := by
  have hsame : ((contents leaves).filter fun e =>
      passes (cellTest file c f.op f.value (absentValue state.colDefs c) e)) =
        (contents leaves).filter fun e =>
          passes (rowPasses state.colNameToId state.colDefs e.2.row [f] []) := by
    apply List.filter_congr
    intro e he
    obtain ⟨b, hcell, hrow⟩ := h.cellTest_eq hclean hf hrows he
    rw [hcell, hrow]
  rw [hsame]
  exact map_filter_rowOf leaves fun row =>
    passes (rowPasses state.colNameToId state.colDefs row [f] [])

omit [Crc32Fast] in
theorem Filter.OnCells.noCandidate (hf : f.OnCells state c) (hone : opts.filters = [f]) :
    indexCandidate state opts = none := by
  unfold indexCandidate
  split
  · rw [hone]
    apply List.find?_eq_none.mpr
    intro g hg hindexed
    obtain rfl := List.mem_singleton.mp hg
    simp only [Bool.and_eq_true, Bool.or_eq_true, decide_eq_true_eq] at hindexed
    obtain ⟨hop, hsome⟩ := hindexed
    rw [hf.noIndex (hop.resolve_right hf.op)] at hsome
    cases hsome
  · rfl

/-- **The path for one filter**: the rows whose cells pass. -/
theorem RowTree.findByFilter_collects (h : RowTree file state.rootPage leaves branches)
    (hclean : file.writeState = ⟨∅, 0⟩) (hids : KeptUnder (rowsIn leaves))
    (hf : f.OnCells state c) (hrows : WholeRows (rowsIn leaves)) :
    ∃ total, findByFilter file state opts f = .ok ⟨if opts.sort.isEmpty then
        opts.page ((passingAll state [f] (rowsIn leaves)).map rowRecord)
        else (passingAll state [f] (rowsIn leaves)).map rowRecord, total, opts.sort.isEmpty⟩ ∧
      (opts.includeTotal = true → total = (passingAll state [f] (rowsIn leaves)).length) := by
  have htest : ∀ e ∈ contents leaves, ∃ b, cellTest file c f.op f.value
      (((state.colDefs[c.toNat]?).bind ColumnDef.default).getD .null) e = .ok b := by
    intro e he
    obtain ⟨b, hcell, -⟩ := h.cellTest_eq hclean hf hrows he
    exact ⟨b, hcell⟩
  have hpassing := h.passing_cells hclean hf hrows
  have hcount : ((contents leaves).filter fun e =>
      passes (cellTest file c f.op f.value (absentValue state.colDefs c) e)).length =
        (passingAll state [f] (rowsIn leaves)).length := by
    rw [← hpassing, List.length_map]
  have hsub : (passingAll state [f] (rowsIn leaves)).Sublist (rowsIn leaves) := List.filter_sublist
  -- the scan stops early only when nothing is sorted and no total is asked for
  have hnostop : opts.sort ≠ [] ∨ opts.includeTotal = true → opts.stopAfter = none := by
    intro hwhole
    cases hstop : opts.stopAfter with
    | none => rfl
    | some n =>
        obtain ⟨hsort, htotal, -⟩ := FindOptions.stopAfter_eq_some hstop
        rcases hwhole with hne | hne
        · exact absurd hsort hne
        · rw [htotal] at hne
          cases hne
  unfold findByFilter
  rw [hf.colId]
  dsimp only
  cases hsort : opts.sort with
  | nil =>
      obtain ⟨total, hscan, htotal⟩ := @RowTree.scanFiltered_ok _ file state.rootPage leaves
        branches c f.op f.value opts.limit opts.offset opts.stopAfter
        ((state.colDefs[c.toNat]?).bind ColumnDef.default) h hclean htest fun n hn => by
          rw [(FindOptions.stopAfter_eq_some hn).2.2]
          rfl
      refine ⟨total, ?_, fun hinclude => (htotal (hnostop (.inr hinclude))).trans hcount⟩
      have hpage := (hids.sublist (((List.take_sublist opts.take _).trans
        (List.drop_sublist opts.skip _)).trans hsub)).unwrap_fromRaw
      simp only [List.isEmpty_nil, if_true]
      rw [hscan, ok_bind]
      dsimp only
      change (((((contents leaves).filter fun e => passes (cellTest file c f.op f.value
        (absentValue state.colDefs c) e)).map rowOf).drop opts.skip).take opts.take).mapM _ >>= _ = _
      rw [hpassing, hpage, ok_bind, FindOptions.page, ← List.map_drop, ← List.map_take]
      rfl
  | cons key keys =>
      have hne : opts.sort ≠ [] := by
        rw [hsort]
        exact List.cons_ne_nil _ _
      -- a sorted query scans without limit, up to the largest `u32`
      obtain ⟨total, hscan, htotal⟩ := @RowTree.scanFiltered_ok _ file state.rootPage leaves
        branches c f.op f.value none none opts.stopAfter
        ((state.colDefs[c.toNat]?).bind ColumnDef.default) h hclean htest fun n hn => by
          rw [hnostop (.inl hne)] at hn
          cases hn
      refine ⟨total, ?_, fun _ => (htotal (hnostop (.inl hne))).trans hcount⟩
      have hfew : (passingAll state [f] (rowsIn leaves)).length ≤ 2 ^ 32 - 1 := by
        have hle := hsub.length_le
        have hlt := hrows.few
        omega
      simp only [List.isEmpty_cons, Bool.false_eq_true, if_false]
      rw [hscan, ok_bind]
      dsimp only
      change (((((contents leaves).filter fun e => passes (cellTest file c f.op f.value
        (absentValue state.colDefs c) e)).map rowOf).drop 0).take (2 ^ 32 - 1)).mapM _ >>= _ = _
      rw [hpassing, List.drop_zero, List.take_of_length_le hfew, (hids.sublist hsub).unwrap_fromRaw,
        ok_bind]
      rfl

/-- **A query for one filter that is evaluated on cells.** -/
theorem RowTree.find_onCells (h : RowTree file state.rootPage leaves branches)
    (hclean : file.writeState = ⟨∅, 0⟩) (hids : KeptUnder (rowsIn leaves))
    (hf : f.OnCells state c) (hrows : WholeRows (rowsIn leaves)) (hone : opts.filters = [f])
    (hgroups : opts.orGroups = []) (hans : queryAnswer state (rowsIn leaves) opts = .ok res) :
    find file state opts = .ok res := by
  obtain ⟨passing, hpassing, hres⟩ := answer_eq_ok hans
  obtain ⟨-, hkept⟩ := matching_eq_ok hpassing
  rw [hone, hgroups] at hkept
  obtain ⟨total, hcollect, htotal⟩ :=
    @RowTree.findByFilter_collects _ file state f c leaves branches opts h hclean hids hf hrows
  have hpath : collectMatching file state opts = findByFilter file state opts f := by
    unfold collectMatching
    rw [hf.noCandidate hone, hgroups, hone]
    exact if_pos ⟨hf.op, hf.named⟩
  rw [hkept] at hres
  rw [BoogyDb.find, hpath, hcollect, ok_bind, ← hres, finish]
  have hlen : ((passingAll state [f] (rowsIn leaves)).map rowRecord).length =
      (passingAll state [f] (rowsIn leaves)).length := List.length_map _
  have hsame : (if opts.includeTotal then some total else none) =
      if opts.includeTotal then some ((passingAll state [f] (rowsIn leaves)).map rowRecord).length
      else none := by
    split
    · rename_i hinclude
      rw [hlen, htotal hinclude]
    · rfl
  dsimp only
  rw [hsame]
  cases hsort : opts.sort <;> rfl

/-- **A count for one filter that is evaluated on cells.** -/
theorem RowTree.count_onCells (h : RowTree file state.rootPage leaves branches)
    (hclean : file.writeState = ⟨∅, 0⟩) (hf : f.OnCells state c)
    (hrows : WholeRows (rowsIn leaves)) {passing : RowList}
    (hpassing : matching state [f] [] (rowsIn leaves) = .ok passing) :
    countWith file state [f] [] = .ok passing.length := by
  obtain ⟨-, hkept⟩ := matching_eq_ok hpassing
  have hindex : countByIndex file state f = none := by
    unfold countByIndex
    by_cases hop : f.op = .eq
    · rw [if_pos hop, hf.noIndex hop]
      rfl
    · rw [if_neg hop]
  have hscan : countByScan file state [f] [] = .ok passing.length := by
    rw [countByScan, h.scanAll hclean, ok_bind]
    change (matching state [f] [] (rowsIn leaves) >>= _) = _
    rw [hpassing, ok_bind]
    rfl
  unfold BoogyDb.countWith
  dsimp only
  rw [hindex, countByFilter, if_pos ⟨hf.op, hf.named⟩, hf.colId]
  dsimp only
  by_cases hdefault : ((state.colDefs[c.toNat]?).bind ColumnDef.default).isSome
  · -- a column with a default is counted by a scan
    rw [if_pos hdefault]
    exact hscan
  · rw [if_neg hdefault]
    have habsent : absentValue state.colDefs c = .null := by
      rw [absentValue, Option.not_isSome_iff_eq_none.mp hdefault]
      rfl
    have hcount := (@RowTree.countFiltered_eq_ok_iff _ file state.rootPage leaves branches c f.op
      f.value h hclean passing.length).mpr ?_
    · exact hcount
    · rw [← habsent]
      refine ⟨fun e he => ?_, ?_⟩
      · obtain ⟨b, hcell, -⟩ := h.cellTest_eq hclean hf hrows he
        exact ⟨b, hcell⟩
      · rw [hkept, ← List.length_map rowOf]
        exact congrArg List.length (h.passing_cells hclean hf hrows).symm

end

/-! ## The database -/

/-- The fast paths answer from these rows. -/
structure FastAnswers [Crc32Fast] (db : Db) (table : String) (state : TableMeta)
    (rows : RowList) : Prop where
  indexed : ∀ (f : Filter) idx t c, Indexes state rows f.column idx t c → f.LookedUp t →
    ∀ (opts : FindOptions) res, indexCandidate state opts = some f → Bounded opts f →
      queryAnswer state rows opts = .ok res → db.find table opts = .ok res
  indexedCount : ∀ (f : Filter) idx t c, Indexes state rows f.column idx t c → f.LookedUp t →
    f.op = .eq → ∀ passing, matching state [f] [] rows = .ok passing →
      db.countWith table [f] [] = .ok passing.length
  onCells : ∀ (f : Filter) c, f.OnCells state c → WholeRows rows →
    ∀ (opts : FindOptions) res, opts.filters = [f] → opts.orGroups = [] →
      queryAnswer state rows opts = .ok res → db.find table opts = .ok res
  onCellsCount : ∀ (f : Filter) c, f.OnCells state c → WholeRows rows →
    ∀ passing, matching state [f] [] rows = .ok passing →
      db.countWith table [f] [] = .ok passing.length

section

variable [Crc32Fast] {storable : UInt64 → List UInt8 → Prop} {db : Db} {table : String}
  {state : TableMeta}

/-- **The fast paths answer as the query is defined**, in every state of a run in which no column
of an index gets another type by a rename. -/
theorem Reaches.fast_queries (hstore : ∀ id row, storable id row → Storable id row)
    (hreach : Reaches storable True db) (hname : db.tables.lookup table = some state) :
    ∃ rows, BTreeReader.scanAll db.file state.rootPage = .ok rows ∧
      FastAnswers db table state rows := by
  obtain ⟨Ms, hinv⟩ := hreach.inv hstore
  obtain ⟨leaves, branches, htree, hrep, hlists⟩ := hinv.lists hname
  have hscans := hinv.scansKeys hname hrep
  have hfetch : Fetches db.file state (rowsIn leaves) :=
    ⟨hlists, hrep.increase, fun ids hids => htree.multiGetSorted hinv.clean hids⟩
  have hmem : ∀ {column idx}, state.findIndexForColumn column = some idx → idx ∈ state.indexes :=
    fun hfound => List.mem_of_find?_eq_some hfound
  refine ⟨rowsIn leaves, hlists.scanAll, ?_, ?_, ?_, ?_⟩
  · intro f idx t c h hf opts res hcandidate hbounded hans
    rw [Db.find, Db.tableState, hname]
    exact h.find hfetch (hscans idx (hmem h.found)) hf hcandidate hbounded hans
  · intro f idx t c h hf hop passing hpassing
    rw [Db.countWith, Db.tableState, hname]
    exact h.count hfetch (hscans idx (hmem h.found)) hf hop hpassing
  · intro f c hf hrows opts res hone hgroups hans
    rw [Db.find, Db.tableState, hname]
    exact htree.find_onCells hinv.clean hlists.ids hf hrows hone hgroups hans
  · intro f c hf hrows passing hpassing
    rw [Db.countWith, Db.tableState, hname]
    exact htree.count_onCells hinv.clean hf hrows hpassing

end

/-! ## A table of numbers -/

/-- The filter for the number of the second row. -/
def numberFilter : Filter := ⟨"n", .eq, .integer 9, none⟩

theorem lookedUp_numberFilter : numberFilter.LookedUp .integer := by
  refine ⟨.inl rfl, fun v hv => ?_⟩
  obtain rfl := List.mem_singleton.mp hv
  exact ⟨⟨rfl, nofun⟩, nofun, nofun⟩

theorem reads_firstNumber : Reads firstNumber.2 0 (some (.integer 5)) where
  raw := by decide +kernel
  value := by decide +kernel
  size x hx := by
    obtain rfl := Option.some.inj hx
    decide

theorem reads_secondNumber : Reads secondNumber.2 0 (some (.integer 9)) where
  raw := by decide +kernel
  value := by decide +kernel
  size x hx := by
    obtain rfl := Option.some.inj hx
    decide

/-- Of two rows, the second is found by its number. -/
theorem fast_queries_numbers : letI := crc32Ieee
    ∃ (db : Db) (state : TableMeta), db.tables.lookup "t" = some state ∧
      BTreeReader.scanAll db.file state.rootPage = .ok storedNumbers ∧
      db.find "t" (plainQuery [numberFilter] []) = .ok ⟨[rowRecord secondNumber], none⟩ := by
  let := crc32Ieee
  obtain ⟨db, hreaches, htable⟩ := @exists_checkedRun _ numbersRun
    (fun db => (db.tables.lookup "t").any fun state =>
      ((state.findIndexForColumn "n").map IndexMeta.columns = some ["n"] ∧
        state.colId "n" = some 0 ∧ state.firstType "n" = some .integer) ∧
      (BTreeReader.scanAll db.file state.rootPage).toOption = some storedNumbers ∧
      indexCandidate state (plainQuery [numberFilter] []) = some numberFilter ∧
      (queryAnswer state storedNumbers (plainQuery [numberFilter] [])).toOption =
        some ⟨[rowRecord secondNumber], none⟩) _ (by decide +kernel)
  obtain ⟨state, hname, hfacts⟩ := (Option.any_eq_true _ _).mp htable
  obtain ⟨⟨hindex, hcol, htype⟩, hscan, hcandidate, hans⟩ := of_decide_eq_true hfacts
  obtain ⟨idx, hfound, hcolumns⟩ := Option.map_eq_some_iff.mp hindex
  obtain ⟨rows, hrows, hfast⟩ := Reaches.fast_queries (fun _ _ => id) hreaches hname
  obtain rfl := Except.ok.inj ((ok_of_toOption hscan).symm.trans hrows)
  have hindexes : Indexes state storedNumbers numberFilter.column idx .integer 0 := by
    refine ⟨hfound, hcolumns, by decide, hcol, htype, .inl rfl, fun r hr => ?_⟩
    rcases List.mem_cons.mp hr with rfl | hr
    · exact ⟨_, reads_firstNumber, rfl, .inr ⟨⟨rfl, nofun⟩, nofun⟩⟩
    · obtain rfl := List.mem_singleton.mp hr
      exact ⟨_, reads_secondNumber, rfl, .inr ⟨⟨rfl, nofun⟩, nofun⟩⟩
  refine ⟨db, state, hname, hrows, hfast.indexed numberFilter idx .integer 0 hindexes
    lookedUp_numberFilter _ _ hcandidate ?_ (ok_of_toOption hans)⟩
  exact fun _ _ => ⟨rfl, by decide⟩

end BoogyDb
