import BoogyDb.TableWrites

/-!
# The trees of a table

A table has a tree for its rows and one for each of its indexes.  `TableModel` is what
they hold: the rows by their ids, and the keys of each index.  `TableAt` says that the
trees are in the file, each on pages of its own, so an operation on one of them leaves
the others alone (`TableAt.rowsTree`, `TableAt.indexTree`).

The indexes follow the rows: `IndexedBy t indexes M R` says that they have the keys of the
rows `R`.  `wlp_indexUpdateRow` adds the keys of a row or removes them.
-/

namespace BoogyDb

open Bytes Wp WriteGuard FencedTree Ownership BTreeWriter

/-- The rows of a table, and the keys of its indexes. -/
structure TableModel where
  rows : UInt64 → Option (List UInt8)
  keys : ℕ → Set (List UInt8)

/-- An index without the place of its tree. -/
def IndexMeta.shape (idx : IndexMeta) : String × List String × Bool :=
  (idx.name, idx.columns, idx.unique)

/-- Only the roots of the indexes may differ. -/
def SameShapes (indexes indexes' : List IndexMeta) : Prop :=
  indexes'.map IndexMeta.shape = indexes.map IndexMeta.shape

/-- The row operations leave the schema. -/
structure SameSchema (t t' : TableMeta) : Prop where
  name : t'.name = t.name
  tableId : t'.tableId = t.tableId
  columns : t'.columns = t.columns
  colNameToId : t'.colNameToId = t.colNameToId
  colNames : t'.colNames = t.colNames
  colDefs : t'.colDefs = t.colDefs
  indexes : SameShapes t.indexes t'.indexes

section

variable {t t' t'' : TableMeta} {indexes indexes' : List IndexMeta} {idx idx' : IndexMeta} {i : ℕ}

theorem SameSchema.refl (t : TableMeta) : SameSchema t t := ⟨rfl, rfl, rfl, rfl, rfl, rfl, rfl⟩

theorem SameSchema.trans (h : SameSchema t t') (h' : SameSchema t' t'') : SameSchema t t'' where
  name := h'.name.trans h.name
  tableId := h'.tableId.trans h.tableId
  columns := h'.columns.trans h.columns
  colNameToId := h'.colNameToId.trans h.colNameToId
  colNames := h'.colNames.trans h.colNames
  colDefs := h'.colDefs.trans h.colDefs
  indexes := Eq.trans h'.indexes h.indexes

theorem SameShapes.length (h : SameShapes indexes indexes') : indexes'.length = indexes.length := by
  have hlen := congrArg List.length h
  rwa [List.length_map, List.length_map] at hlen

theorem SameShapes.getElem? (h : SameShapes indexes indexes') (hi : indexes'[i]? = some idx') :
    ∃ idx, indexes[i]? = some idx ∧ idx'.shape = idx.shape := by
  have hshape := congrArg (fun l => l[i]?) h
  rw [List.getElem?_map, List.getElem?_map, hi] at hshape
  cases hidx : indexes[i]? with
  | none =>
      rw [hidx] at hshape
      cases hshape
  | some idx =>
      rw [hidx] at hshape
      exact ⟨idx, rfl, Option.some.inj hshape⟩

theorem SameShapes.set (hi : indexes[i]? = some idx) (h : idx'.shape = idx.shape) :
    SameShapes indexes (indexes.set i idx') := by
  rw [SameShapes, List.map_set, h]
  refine List.ext_getElem? fun j => ?_
  rw [List.getElem?_set]
  split
  · rename_i hij
    subst hij
    rw [List.getElem?_map, hi, List.length_map]
    have hlt : i < indexes.length := (List.getElem?_eq_some_iff.mp hi).1
    rw [if_pos hlt]
    rfl
  · rfl

theorem resolveColumns_congr (h : SameSchema t t') (columns : List String) :
    resolveColumns t' columns = resolveColumns t columns := by
  unfold resolveColumns TableMeta.colId TableMeta.firstType
  rw [h.columns, h.colNameToId]

theorem indexKey_congr (h : SameSchema t t') (columns : List String) (id : UInt64)
    (row : List UInt8) : indexKey t' columns id row = indexKey t columns id row := by
  unfold indexKey
  rw [resolveColumns_congr h]

end

/-! ## The keys of rows -/

section

variable {t t' : TableMeta} {indexes indexes' : List IndexMeta} {M M' : TableModel}
  {R : UInt64 → Option (List UInt8)} {id : UInt64} {row : List UInt8}

/-- The indexes have the keys of the rows `R`. -/
def IndexedBy (t : TableMeta) (indexes : List IndexMeta) (M : TableModel)
    (R : UInt64 → Option (List UInt8)) : Prop :=
  ∀ i idx, indexes[i]? = some idx → ∀ k, k ∈ M.keys i ↔
    ∃ id row, R id = some row ∧ indexKey t idx.columns id row = .ok (some k)

/-- A key is put into a set of keys, or taken out of it. -/
def editKeys (remove : Bool) (key : Option (List UInt8)) (keys : Set (List UInt8)) :
    Set (List UInt8) :=
  match key with
  | none => keys
  | some k => if remove then keys \ {k} else insert k keys

/-- The keys of a row were put into the indexes, or taken out, except for the first `n`
indexes. -/
structure Edited (n : ℕ) (t : TableMeta) (indexes : List IndexMeta) (id : UInt64)
    (row : List UInt8) (remove : Bool) (M M' : TableModel) : Prop where
  rows : M'.rows = M.rows
  keys : ∀ i idx, n ≤ i → indexes[i]? = some idx → ∃ key, indexKey t idx.columns id row = .ok key ∧
    (remove = false → ∀ k ∈ key, k ∉ M.keys i) ∧ M'.keys i = editKeys remove key (M.keys i)
  others : ∀ i < n, M'.keys i = M.keys i

theorem encodeCompositeIndexKey_eq_some {vals : List (ColumnType × Value)} {k : List UInt8}
    (h : encodeCompositeIndexKey vals id = some k) :
    ∃ pre, encodeCompositeValuePrefix vals = some pre ∧ k = pre ++ toBeBytes id := by
  unfold encodeCompositeIndexKey at h
  cases hpre : encodeCompositeValuePrefix vals with
  | none =>
      rw [hpre] at h
      cases h
  | some pre =>
      rw [hpre] at h
      exact ⟨pre, rfl, (Option.some.inj h).symm⟩

/-- A key ends in the id of its row. -/
theorem indexKey_eq_some {columns : List String} {k : List UInt8}
    (h : indexKey t columns id row = .ok (some k)) :
    ∃ pre, indexPrefix t columns row = .ok (some pre) ∧ k = pre ++ toBeBytes id := by
  unfold indexKey at h
  unfold indexPrefix
  cases hcols : resolveColumns t columns with
  | none =>
      rw [hcols] at h
      cases h
  | some cols =>
      rw [hcols] at h
      obtain ⟨vals, hvals, hk⟩ := bind_eq_ok.mp h
      obtain ⟨pre, hpre, rfl⟩ := encodeCompositeIndexKey_eq_some (Except.ok.inj hk)
      refine ⟨pre, ?_, rfl⟩
      dsimp only
      rw [hvals, ok_bind, hpre]
      rfl

theorem toBeBytes_injective {a b : UInt64} (h : toBeBytes a = toBeBytes b) : a = b := by
  have hnat := congrArg beNat h
  unfold toBeBytes at hnat
  rw [beNat_beBytes_of_lt a.toNat_lt, beNat_beBytes_of_lt b.toNat_lt] at hnat
  exact UInt64.toNat_inj.mp hnat

/-- Rows with different ids have different keys. -/
theorem id_eq_of_indexKey {columns columns' : List String} {id' : UInt64} {row' k : List UInt8}
    (h : indexKey t columns id row = .ok (some k))
    (h' : indexKey t columns' id' row' = .ok (some k)) : id = id' := by
  obtain ⟨pre, -, rfl⟩ := indexKey_eq_some h
  obtain ⟨pre', -, heq⟩ := indexKey_eq_some h'
  have hlen : (toBeBytes id).length = (toBeBytes id').length := by
    unfold toBeBytes
    rw [length_beBytes, length_beBytes]
  exact toBeBytes_injective (List.append_inj' heq hlen).2

theorem IndexedBy.congr (h : IndexedBy t indexes M R) (hschema : SameSchema t t')
    (hshapes : SameShapes indexes indexes') : IndexedBy t' indexes' M R := by
  intro i idx' hi k
  obtain ⟨idx, hidx, hshape⟩ := hshapes.getElem? hi
  have hcolumns : idx'.columns = idx.columns := congrArg (fun s => s.2.1) hshape
  simp only [indexKey_congr hschema, hcolumns]
  exact h i idx hidx k

/-- The keys of a row that is new among `R`. -/
theorem IndexedBy.put (h : IndexedBy t indexes M R) (hedit : Edited 0 t indexes id row false M M')
    (hid : R id = none) : IndexedBy t indexes M' (Function.update R id (some row)) := by
  intro i idx hi k
  obtain ⟨key, hkey, -, hkeys⟩ := hedit.keys i idx (Nat.zero_le i) hi
  have hold : ∀ id' row', R id' = some row' ↔ id' ≠ id ∧
      Function.update R id (some row) id' = some row' := by
    intro id' row'
    by_cases hne : id' = id
    · subst hne
      simp [hid]
    · simp [hne]
  rw [hkeys]
  constructor
  · intro hk
    have hcases : key = some k ∨ k ∈ M.keys i := by
      cases key with
      | none => exact .inr hk
      | some k' => exact hk.imp (fun heq => congrArg some heq.symm) fun hin => hin
    rcases hcases with rfl | hin
    · exact ⟨id, row, Function.update_self .., hkey⟩
    · obtain ⟨id', row', hrow, hkey'⟩ := (h i idx hi k).mp hin
      exact ⟨id', row', ((hold id' row').mp hrow).2, hkey'⟩
  · rintro ⟨id', row', hrow, hkey'⟩
    by_cases hne : id' = id
    · subst hne
      rw [Function.update_self] at hrow
      obtain rfl := Option.some.inj hrow
      rw [hkey] at hkey'
      rw [Except.ok.inj hkey']
      exact Set.mem_insert k _
    · have hin := (h i idx hi k).mpr ⟨id', row', (hold id' row').mpr ⟨hne, hrow⟩, hkey'⟩
      cases key with
      | none => exact hin
      | some k' => exact Set.mem_insert_of_mem _ hin

/-- Without the keys of a row of `R`. -/
theorem IndexedBy.remove (h : IndexedBy t indexes M R) (hedit : Edited 0 t indexes id row true M M')
    (hid : R id = some row) : IndexedBy t indexes M' (Function.update R id none) := by
  intro i idx hi k
  obtain ⟨key, hkey, -, hkeys⟩ := hedit.keys i idx (Nat.zero_le i) hi
  rw [hkeys]
  have hother : ∀ id' row', Function.update R id none id' = some row' ↔
      id' ≠ id ∧ R id' = some row' := by
    intro id' row'
    by_cases hne : id' = id
    · subst hne
      simp
    · simp [hne]
  constructor
  · intro hk
    have hparts : k ∈ M.keys i ∧ key ≠ some k := by
      cases key with
      | none => exact ⟨hk, nofun⟩
      | some k' => exact ⟨hk.1, fun heq => hk.2 (Option.some.inj heq).symm⟩
    obtain ⟨id', row', hrow, hkey'⟩ := (h i idx hi k).mp hparts.1
    refine ⟨id', row', (hother id' row').mpr ⟨?_, hrow⟩, hkey'⟩
    rintro rfl
    rw [hid] at hrow
    obtain rfl := Option.some.inj hrow
    rw [hkey] at hkey'
    exact hparts.2 (Except.ok.inj hkey')
  · rintro ⟨id', row', hrow, hkey'⟩
    obtain ⟨hne, hrow⟩ := (hother id' row').mp hrow
    have hin := (h i idx hi k).mpr ⟨id', row', hrow, hkey'⟩
    cases key with
    | none => exact hin
    | some k' =>
        refine ⟨hin, ?_⟩
        rintro rfl
        exact hne (id_eq_of_indexKey hkey' hkey)

end

/-! ## The pages of a table -/

section

variable [Crc32Fast]

/-- The tree of the rows is number 0, the indexes come after it. -/
def trees (root : ℕ) (indexes : List IndexMeta) (M : TableModel) : ℕ → Assertion WriteGuard
  | 0 => RowsAt root M.rows
  | i + 1 =>
    match indexes[i]? with
    | some idx => KeysAt idx.rootPage (M.keys i)
    | none => emp

/-- The trees of a table, each on its own pages. -/
def TableAt (root : ℕ) (indexes : List IndexMeta) (M : TableModel) : Assertion WriteGuard :=
  Whole (trees root indexes M)

variable {root root' : ℕ} {indexes : List IndexMeta} {idx : IndexMeta} {M : TableModel}
  {g : WriteGuard} {P : Set ℕ} {i : ℕ}

instance (i : ℕ) : Local (trees root indexes M i) := by
  cases i with
  | zero => exact inferInstanceAs (Local (RowsAt root M.rows))
  | succ i =>
      rw [trees]
      cases indexes[i]? with
      | some idx =>
          show Local (KeysAt idx.rootPage (M.keys i))
          infer_instance
      | none =>
          show Local (emp : Assertion WriteGuard)
          infer_instance

instance : Local (TableAt root indexes M) := inferInstanceAs (Local (Whole _))

/-- **The tree of the rows at work.** -/
theorem TableAt.rowsTree (h : TableAt root indexes M g P) : ∃ Q, RowsAt root M.rows g Q ∧
    ∀ root' m g', Turns (RowsAt root' m) g Q g' →
      Turns (TableAt root' indexes { M with rows := m }) g P g' := by
  obtain ⟨Q, hQ, hback⟩ := Whole.owner h 0
  refine ⟨Q, hQ, fun root' m g' hturn => ?_⟩
  have heq : Function.update (trees root indexes M) 0 (RowsAt root' m) =
      trees root' indexes { M with rows := m } := by
    funext j
    cases j with
    | zero => exact Function.update_self ..
    | succ j => exact Function.update_of_ne (Nat.succ_ne_zero j) ..
  unfold TableAt
  rw [← heq]
  exact hback _ _ hturn

theorem trees_index (hi : indexes[i]? = some idx) :
    trees root indexes M (i + 1) = KeysAt idx.rootPage (M.keys i) := by
  rw [trees, hi]

/-- **The tree of an index at work.** -/
theorem TableAt.indexTree (h : TableAt root indexes M g P) (hi : indexes[i]? = some idx) :
    ∃ Q, KeysAt idx.rootPage (M.keys i) g Q ∧
      ∀ idx' s g', Turns (KeysAt idx'.rootPage s) g Q g' →
        Turns (TableAt root (indexes.set i idx') { M with keys := Function.update M.keys i s }) g P
          g' := by
  obtain ⟨Q, hQ, hback⟩ := Whole.owner h (i + 1)
  rw [trees_index hi] at hQ
  refine ⟨Q, hQ, fun idx' s g' hturn => ?_⟩
  have hlt : i < indexes.length := (List.getElem?_eq_some_iff.mp hi).1
  have heq : Function.update (trees root indexes M) (i + 1) (KeysAt idx'.rootPage s) =
      trees root (indexes.set i idx') { M with keys := Function.update M.keys i s } := by
    funext j
    cases j with
    | zero => exact Function.update_of_ne (Nat.succ_ne_zero i).symm ..
    | succ j =>
        by_cases hij : j = i
        · subst hij
          rw [Function.update_self, trees_index (List.getElem?_set_self hlt)]
          dsimp only
          rw [Function.update_self]
        · rw [Function.update_of_ne (fun heq => hij (Nat.succ.inj heq)), trees, trees,
            List.getElem?_set_ne (Ne.symm hij)]
          dsimp only
          rw [Function.update_of_ne hij]
  unfold TableAt
  rw [← heq]
  exact hback _ _ hturn

end

end BoogyDb
