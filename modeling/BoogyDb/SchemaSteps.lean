import BoogyDb.SchemaWrites
import BoogyDb.TableSteps

/-!
# Schema operations as steps of a table

What each operation on the columns and indexes of a locked table does to it, when it
returns.  `TableOk` collects what holds of a table beside its pages; every operation keeps
it (`TableStep`), the row operations as well.

The keys of an index agree with the rows as long as no rename gives one of its columns
another type (`KeepsTypes`): the type of a column is that of the first column with its
name, which may be a dropped one.
-/

namespace BoogyDb

open Bytes Wp WriteGuard FencedTree Ownership

/-! ## Keys of given columns -/

section

variable {t : TableMeta} {columns : List String} {cols : List (UInt16 × ColumnType)} {id : UInt64}
  {row : List UInt8}

/-- The key of a row in the given columns. -/
def columnsKey (cols : List (UInt16 × ColumnType)) (id : UInt64) (bytes : List UInt8) :
    Result (Option (List UInt8)) := do
  let vals ← indexValues cols bytes
  pure (encodeCompositeIndexKey vals id)

/-- What a row is looked up by in the given columns. -/
def columnsPrefix (cols : List (UInt16 × ColumnType)) (bytes : List UInt8) :
    Result (Option (List UInt8)) := do
  let vals ← indexValues cols bytes
  pure (encodeCompositeValuePrefix vals)

theorem indexKey_resolved (h : resolveColumns t columns = some cols) :
    indexKey t columns id row = columnsKey cols id row := by
  unfold indexKey
  rw [h]
  rfl

theorem resolveColumns_eq_some : resolveColumns t columns = some cols ↔
    List.Forall₂ (fun c r => t.colId c = some r.1 ∧ t.firstType c = some r.2) columns cols := by
  unfold resolveColumns
  induction columns generalizing cols with
  | nil =>
      rw [List.mapM_nil]
      constructor
      · intro h
        cases h
        exact .nil
      · intro h
        cases h
        rfl
  | cons c columns ih =>
      rw [List.mapM_cons]
      constructor
      · intro h
        obtain ⟨r, hr, h⟩ := Option.bind_eq_some_iff.mp h
        obtain ⟨rest, hrest, h⟩ := Option.bind_eq_some_iff.mp h
        obtain ⟨colId, hid, hr⟩ := Option.bind_eq_some_iff.mp hr
        obtain ⟨colType, htype, hr⟩ := Option.bind_eq_some_iff.mp hr
        cases h
        cases hr
        exact .cons ⟨hid, htype⟩ (ih.mp hrest)
      · intro h
        cases h with
        | cons hr hrest =>
            rw [hr.1, hr.2, ih.mpr hrest]
            rfl

/-- Columns that resolve are live. -/
theorem resolveColumns_live (h : resolveColumns t columns = some cols) :
    ∀ c ∈ columns, (t.colNameToId c).isSome ∧ (t.firstType c).isSome := by
  rw [resolveColumns_eq_some] at h
  induction h with
  | nil => simp
  | cons hr _ ih =>
      rw [List.forall_mem_cons]
      exact ⟨⟨Option.isSome_of_eq_some hr.1, Option.isSome_of_eq_some hr.2⟩, ih⟩

/-- Columns under other names that mean the same. -/
theorem resolveColumns_map {t' : TableMeta} {f : String → String}
    (h : ∀ c ∈ columns, t'.colNameToId (f c) = t.colNameToId c ∧ t'.firstType (f c) = t.firstType c) :
    resolveColumns t' (columns.map f) = resolveColumns t columns := by
  induction columns with
  | nil => rfl
  | cons c columns ih =>
      rw [List.forall_mem_cons] at h
      have hrest := ih h.2
      unfold resolveColumns at hrest ⊢
      unfold TableMeta.colId at hrest ⊢
      rw [List.map_cons, List.mapM_cons, List.mapM_cons, hrest, h.1.1, h.1.2]

theorem findColumns_eq_ok {table : String} (h : findColumns table t columns = .ok cols) :
    resolveColumns t columns = some cols := by
  rw [findColumns, Except.mapM_eq_ok_iff] at h
  rw [resolveColumns_eq_some]
  refine h.imp fun c r hr => ?_
  cases hid : t.colId c with
  | none =>
      rw [hid] at hr
      cases hr
  | some colId =>
      rw [hid] at hr
      dsimp only at hr
      cases htype : t.firstType c with
      | none =>
          rw [htype] at hr
          cases hr
      | some colType =>
          rw [htype] at hr
          cases hr
          exact ⟨rfl, rfl⟩

end

/-! ## What holds of a table -/

section

variable {t t' : TableMeta} {M M' : TableModel} {storable : UInt64 → List UInt8 → Prop}
  {keyed : Prop}

/-- What holds of a table beside its pages.  Where no rename has given a column of an index
another type (`keyed`), the indexes have the keys of the rows. -/
structure TableOk (storable : UInt64 → List UInt8 → Prop) (keyed : Prop) (t : TableMeta)
    (M : TableModel) : Prop where
  inv : TableInv storable M t.rowCount.toNat t.nextRowid
  names : (t.indexes.map IndexMeta.name).Nodup
  led : ∀ idx ∈ t.indexes, idx.columns ≠ []
  live : ∀ idx ∈ t.indexes, ∀ c ∈ idx.columns, (t.colNameToId c).isSome
  typed : keyed → ∀ idx ∈ t.indexes, ∀ c ∈ idx.columns, (t.firstType c).isSome
  indexed : keyed → IndexedBy t t.indexes M M.rows

theorem SameShapes.mem {indexes indexes' : List IndexMeta} (h : SameShapes indexes indexes')
    {idx' : IndexMeta} (hidx : idx' ∈ indexes') : ∃ idx ∈ indexes, idx'.shape = idx.shape := by
  obtain ⟨i, hi⟩ := List.mem_iff_getElem?.mp hidx
  obtain ⟨idx, hi', hshape⟩ := h.getElem? hi
  exact ⟨idx, List.mem_of_getElem? hi', hshape⟩

/-- A step that leaves the schema. -/
theorem TableOk.sameSchema (h : TableOk storable keyed t M) (hschema : SameSchema t t')
    (hfollows : Follows t t' M M' M.rows M'.rows)
    (hinv : TableInv storable M t.rowCount.toNat t.nextRowid →
      TableInv storable M' t'.rowCount.toNat t'.nextRowid) : TableOk storable keyed t' M' := by
  have hcolumns : ∀ idx' ∈ t'.indexes, ∃ idx ∈ t.indexes, idx'.columns = idx.columns := by
    intro idx' hidx'
    obtain ⟨idx, hidx, hshape⟩ := hschema.indexes.mem hidx'
    exact ⟨idx, hidx, congrArg (fun s => s.2.1) hshape⟩
  refine ⟨hinv h.inv, ?_, fun idx' hidx' => ?_, fun idx' hidx' => ?_, fun hkeyed idx' hidx' => ?_,
    fun hkeyed => hfollows (h.indexed hkeyed)⟩
  · have hnames := congrArg (List.map Prod.fst) hschema.indexes
    rw [List.map_map, List.map_map] at hnames
    exact (congrArg List.Nodup hnames).mpr h.names
  · obtain ⟨idx, hidx, heq⟩ := hcolumns idx' hidx'
    rw [heq]
    exact h.led idx hidx
  · obtain ⟨idx, hidx, heq⟩ := hcolumns idx' hidx'
    rw [heq, hschema.colNameToId]
    exact h.live idx hidx
  · obtain ⟨idx, hidx, heq⟩ := hcolumns idx' hidx'
    rw [heq]
    unfold TableMeta.firstType
    rw [hschema.columns]
    exact h.typed hkeyed idx hidx

/-- The indexes and their columns are where they were, and mean the same. -/
theorem TableOk.reindexed (h : TableOk storable keyed t M)
    (hinv : TableInv storable M' t'.rowCount.toNat t'.nextRowid)
    (hnames : (t'.indexes.map IndexMeta.name).Nodup)
    (hcolumns : ∀ (i : ℕ) (idx' : IndexMeta), t'.indexes[i]? = some idx' →
      ∃ idx : IndexMeta, t.indexes[i]? = some idx ∧
      ∃ f : String → String, idx'.columns = idx.columns.map f ∧
        ∀ c ∈ idx.columns, t'.colNameToId (f c) = t.colNameToId c ∧
          (keyed → t'.firstType (f c) = t.firstType c))
    (hrows : M' = M) : TableOk storable keyed t' M' := by
  subst hrows
  have hmem : ∀ idx' ∈ t'.indexes, ∃ idx ∈ t.indexes, ∃ f : String → String,
      idx'.columns = idx.columns.map f ∧ ∀ c ∈ idx.columns, t'.colNameToId (f c) = t.colNameToId c ∧
        (keyed → t'.firstType (f c) = t.firstType c) := by
    intro idx' hidx'
    obtain ⟨i, hi⟩ := List.mem_iff_getElem?.mp hidx'
    obtain ⟨idx, hidx, hf⟩ := hcolumns i idx' hi
    exact ⟨idx, List.mem_of_getElem? hidx, hf⟩
  refine ⟨hinv, hnames, fun idx' hidx' => ?_, fun idx' hidx' c hc => ?_,
    fun hkeyed idx' hidx' c hc => ?_, fun hkeyed i idx' hi k => ?_⟩
  · obtain ⟨idx, hidx, f, heq, -⟩ := hmem idx' hidx'
    rw [heq]
    exact fun hnil => h.led idx hidx (List.map_eq_nil_iff.mp hnil)
  · obtain ⟨idx, hidx, f, heq, hsame⟩ := hmem idx' hidx'
    rw [heq] at hc
    obtain ⟨a, ha, rfl⟩ := List.mem_map.mp hc
    rw [(hsame a ha).1]
    exact h.live idx hidx a ha
  · obtain ⟨idx, hidx, f, heq, hsame⟩ := hmem idx' hidx'
    rw [heq] at hc
    obtain ⟨a, ha, rfl⟩ := List.mem_map.mp hc
    rw [(hsame a ha).2 hkeyed]
    exact h.typed hkeyed idx hidx a ha
  · obtain ⟨idx, hidx, f, heq, hsame⟩ := hcolumns i idx' hi
    have hresolve : resolveColumns t' idx'.columns = resolveColumns t idx.columns := by
      rw [heq]
      exact resolveColumns_map fun c hc => ⟨(hsame c hc).1, (hsame c hc).2 hkeyed⟩
    have hkey : ∀ id row, indexKey t' idx'.columns id row = indexKey t idx.columns id row := by
      intro id row
      unfold indexKey
      rw [hresolve]
    simp only [hkey]
    exact h.indexed hkeyed i idx hidx k

end

/-! ## Columns -/

section

variable {t : TableMeta} {M : TableModel} {storable : UInt64 → List UInt8 → Prop} {keyed : Prop}

theorem TableMeta.firstType_append {c : String} {columns : List ColumnDef}
    (h : (t.firstType c).isSome) :
    { t with columns := t.columns ++ columns }.firstType c = t.firstType c := by
  unfold firstType at h ⊢
  rw [Option.isSome_map, Option.isSome_iff_exists] at h
  obtain ⟨col, hcol⟩ := h
  dsimp only
  rw [List.find?_append, hcol, Option.some_or]

/-- A change of a column that leaves its name and type. -/
theorem firstType_modify {c : String} {f : ColumnDef → ColumnDef} {columns : List ColumnDef} (i : ℕ)
    (hname : ∀ col, (f col).name = col.name) (htype : ∀ col, (f col).colType = col.colType) :
    ((columns.modify i f).find? fun col => col.name = c).map ColumnDef.colType =
      (columns.find? fun col => col.name = c).map ColumnDef.colType := by
  induction columns generalizing i with
  | nil => rw [List.modify_nil]
  | cons col columns ih =>
      cases i with
      | zero =>
          rw [List.modify_zero_cons, List.find?_cons, List.find?_cons, hname]
          cases decide (col.name = c) with
          | true => exact congrArg some (htype col)
          | false => rfl
      | succ i =>
          rw [List.modify_succ_cons, List.find?_cons, List.find?_cons]
          cases decide (col.name = c) with
          | true => rfl
          | false => exact ih i

/-- A new column leaves the keys. -/
theorem TableOk.addColumn {column : ColumnDef} (h : TableOk storable keyed t M)
    (hnew : t.colNameToId column.name = none) : TableOk storable keyed (t.addColumn column) M := by
  refine h.reindexed h.inv h.names (fun i idx hi => ⟨idx, hi, id, (List.map_id _).symm, ?_⟩) rfl
  intro c hc
  have hmem := List.mem_of_getElem? hi
  have hne : c ≠ column.name := by
    rintro rfl
    have hlive := h.live idx hmem _ hc
    rw [hnew] at hlive
    cases hlive
  refine ⟨Function.update_of_ne hne .., fun hkeyed => ?_⟩
  exact TableMeta.firstType_append (h.typed hkeyed idx hmem c hc)

/-- A column that no index names is dropped. -/
theorem TableOk.dropColumn {name : String} (h : TableOk storable keyed t M)
    (hfree : ∀ idx ∈ t.indexes, name ∉ idx.columns) :
    TableOk storable keyed (t.dropColumn name) M := by
  unfold TableMeta.dropColumn
  cases hid : t.colNameToId name with
  | none => exact h
  | some colId =>
      refine h.reindexed h.inv h.names (fun i idx hi => ⟨idx, hi, id, (List.map_id _).symm, ?_⟩) rfl
      intro c hc
      have hmem := List.mem_of_getElem? hi
      have hne : c ≠ name := by
        rintro rfl
        exact hfree idx hmem hc
      refine ⟨Function.update_of_ne hne .., fun _ => ?_⟩
      exact firstType_modify colId.toNat (fun _ => rfl) fun _ => rfl

/-- A rename of a column leaves the types of the columns of the indexes. -/
def KeepsTypes (t : TableMeta) (old new : String) : Prop :=
  ∀ idx ∈ t.indexes, ∀ c ∈ idx.columns,
    (t.renameColumn old new).firstType (if c = old then new else c) = t.firstType c

/-- A column is renamed, in the indexes as well. -/
theorem TableOk.renameColumn {old new : String} (h : TableOk storable keyed t M)
    (hold : (t.colNameToId old).isSome) (hnew : t.colNameToId new = none)
    (hkeeps : keyed → KeepsTypes t old new) :
    TableOk storable keyed { t.renameColumn old new with
      indexes := (t.renameColumn old new).indexes.map (Session.renameIndexed old new) } M := by
  obtain ⟨colId, hid⟩ := Option.isSome_iff_exists.mp hold
  have hindexes : (t.renameColumn old new).indexes = t.indexes := by
    unfold TableMeta.renameColumn
    rw [hid]
  have hids : (t.renameColumn old new).colNameToId =
      Function.update (Function.update t.colNameToId old none) new (some colId) := by
    unfold TableMeta.renameColumn
    rw [hid]
  have hinv : TableInv storable M (t.renameColumn old new).rowCount.toNat
      (t.renameColumn old new).nextRowid := by
    unfold TableMeta.renameColumn
    rw [hid]
    exact h.inv
  refine h.reindexed hinv ?_ (fun i idx' hi => ?_) rfl
  · dsimp only
    rw [hindexes, List.map_map]
    exact h.names
  · dsimp only at hi
    rw [hindexes, List.getElem?_map] at hi
    obtain ⟨idx, hidx, rfl⟩ := Option.map_eq_some_iff.mp hi
    have hmem := List.mem_of_getElem? hidx
    refine ⟨idx, hidx, _, rfl, fun c hc => ⟨?_, fun hkeyed => hkeeps hkeyed idx hmem c hc⟩⟩
    dsimp only
    rw [hids]
    by_cases hco : c = old
    · rw [if_pos hco, Function.update_self, hco, hid]
    · have hcn : c ≠ new := by
        rintro rfl
        have hlive := h.live idx hmem _ hc
        rw [hnew] at hlive
        cases hlive
      rw [if_neg hco, Function.update_of_ne hcn, Function.update_of_ne hco]

end

/-! ## Trees of indexes -/

section

variable [Crc32Fast] {root : ℕ} {indexes : List IndexMeta} {idx : IndexMeta} {M : TableModel}
  {g g' : WriteGuard} {P : Set ℕ} {keys : Set (List UInt8)}

/-- **A tree for one index more.** -/
theorem TableAt.newIndex (h : TableAt root indexes M g P)
    (hturn : Turns (KeysAt idx.rootPage keys) g ∅ g') :
    Turns (TableAt root (indexes ++ [idx])
      { M with keys := Function.update M.keys indexes.length keys }) g P g' := by
  obtain ⟨Q, hQ, hback⟩ := Whole.owner h (indexes.length + 1)
  have hempty : Q = ∅ := by
    have hemp : trees root indexes M (indexes.length + 1) = emp := by
      rw [trees, List.getElem?_eq_none le_rfl]
    rw [hemp] at hQ
    exact hQ
  subst hempty
  have heq : Function.update (trees root indexes M) (indexes.length + 1)
      (KeysAt idx.rootPage keys) = trees root (indexes ++ [idx])
        { M with keys := Function.update M.keys indexes.length keys } := by
    funext j
    cases j with
    | zero => exact Function.update_of_ne (Nat.succ_ne_zero _).symm ..
    | succ j =>
        by_cases hj : j = indexes.length
        · subst hj
          have hidx : (indexes ++ [idx])[indexes.length]? = some idx := by simp
          rw [Function.update_self, trees_index hidx]
          dsimp only
          rw [Function.update_self]
        · rw [Function.update_of_ne (fun heq => hj (Nat.succ.inj heq)), trees, trees]
          dsimp only
          rw [Function.update_of_ne hj]
          rcases Nat.lt_or_ge j indexes.length with hlt | hge
          · rw [List.getElem?_append_left hlt]
          · have hgt : indexes.length < j := lt_of_le_of_ne hge (Ne.symm hj)
            rw [List.getElem?_eq_none hge, List.getElem?_eq_none (by
              rw [List.length_append]
              exact hgt)]
  unfold TableAt
  rw [← heq]
  exact hback _ _ hturn

/-- The tree that takes the place of tree `i` when index `pos` goes. -/
def skipTree (pos : ℕ) : ℕ → ℕ
  | 0 => 0
  | i + 1 => if i < pos then i + 1 else i + 2

/-- The index whose place index `i` takes. -/
def skipIndex (pos i : ℕ) : ℕ := if i < pos then i else i + 1

omit [Crc32Fast] in
theorem getElem?_eraseIdx_skip (pos i : ℕ) :
    (indexes.eraseIdx pos)[i]? = indexes[skipIndex pos i]? := by
  rw [List.getElem?_eraseIdx, skipIndex]
  split <;> rfl

/-- **The pages of a dropped index** are nobody's. -/
theorem TableAt.eraseIndex (h : TableAt root indexes M g P) (pos : ℕ) :
    Turns (TableAt root (indexes.eraseIdx pos)
      { M with keys := fun i => M.keys (skipIndex pos i) }) g P g := by
  have hinj : Function.Injective (skipTree pos) := by
    intro i j hij
    cases i <;> cases j <;> simp only [skipTree] at hij ⊢ <;> split at hij <;>
      (try split at hij) <;> omega
  have heq : (fun k => trees root indexes M (skipTree pos k)) = trees root (indexes.eraseIdx pos)
      { M with keys := fun i => M.keys (skipIndex pos i) } := by
    funext k
    cases k with
    | zero => rfl
    | succ i =>
        have hskip : skipTree pos (i + 1) = skipIndex pos i + 1 := by
          unfold skipTree skipIndex
          dsimp only
          split <;> rfl
        rw [hskip, trees, trees, getElem?_eraseIdx_skip]
  unfold TableAt
  rw [← heq]
  exact Whole.rename h hinj

end

/-! ## Steps -/

section

variable [Crc32Fast] {s : Session} {M : TableModel} {P : Set ℕ}
  {storable : UInt64 → List UInt8 → Prop} {keyed : Prop}

/-- A step of a table under its lock. -/
structure TableStep (storable : UInt64 → List UInt8 → Prop) (keyed : Prop) (s s' : Session)
    (P : Set ℕ) (M M' : TableModel) : Prop where
  clean : s'.file.writeState = ⟨∅, 0⟩
  ok : TableOk storable keyed s.state M → TableOk storable keyed s'.state M'
  next : s.state.nextRowid ≤ s'.state.nextRowid
  turns : Turns (TableAt s'.state.rootPage s'.state.indexes M') s.file P s'.file

theorem RowStep.tableStep {s' : Session} {M' : TableModel} (h : RowStep storable s s' P M M') :
    TableStep storable keyed s s' P M M' :=
  ⟨h.clean, fun hok => hok.sameSchema h.schema h.follows h.inv, h.next, h.turns⟩

theorem TableStep.of_file {t : TableMeta} (h : TableAt s.state.rootPage s.state.indexes M s.file P)
    (hclean : s.file.writeState = ⟨∅, 0⟩) (hroot : t.rootPage = s.state.rootPage)
    (hindexes : t.indexes.map IndexMeta.rootPage = s.state.indexes.map IndexMeta.rootPage)
    (hnext : s.state.nextRowid ≤ t.nextRowid)
    (hok : TableOk storable keyed s.state M → TableOk storable keyed t M) :
    TableStep storable keyed s { s with state := t } P M M := by
  have htrees : trees t.rootPage t.indexes M = trees s.state.rootPage s.state.indexes M := by
    funext i
    cases i with
    | zero => rw [trees, trees, hroot]
    | succ i =>
        have hi : (t.indexes.map IndexMeta.rootPage)[i]? =
            (s.state.indexes.map IndexMeta.rootPage)[i]? := by rw [hindexes]
        rw [List.getElem?_map, List.getElem?_map] at hi
        rw [trees, trees]
        cases ht : t.indexes[i]? with
        | none =>
            rw [ht] at hi
            cases hs : s.state.indexes[i]? with
            | none => rfl
            | some idx =>
                rw [hs] at hi
                cases hi
        | some idx' =>
            rw [ht] at hi
            cases hs : s.state.indexes[i]? with
            | none =>
                rw [hs] at hi
                cases hi
            | some idx =>
                rw [hs] at hi
                dsimp only
                rw [Option.some.inj hi]
  refine ⟨hclean, hok, hnext, ?_⟩
  unfold TableAt at h ⊢
  rw [htrees]
  exact Turns.refl h

theorem TableStep.refl (h : TableAt s.state.rootPage s.state.indexes M s.file P)
    (hclean : s.file.writeState = ⟨∅, 0⟩) : TableStep storable keyed s s P M M :=
  ⟨hclean, id, le_rfl, Turns.refl h⟩

/-! ## Schema operations -/

/-- Rows whose prefixes in a unique index are their own, and none of `seen`. -/
structure Distinct (cols : List (UInt16 × ColumnType)) (rows : List (UInt64 × List UInt8))
    (seen : List (List UInt8)) : Prop where
  apart : rows.Pairwise fun r r' => ∀ pre, columnsPrefix cols r.2 = .ok (some pre) →
    columnsPrefix cols r'.2 ≠ .ok (some pre)
  fresh : ∀ r ∈ rows, ∀ pre, columnsPrefix cols r.2 = .ok (some pre) → pre ∉ seen

/-- The keys of rows are put into a new index. -/
theorem wlp_populateIndex {indexName : String} {cols : List (UInt16 × ColumnType)} {unique : Bool}
    {rows : List (UInt64 × List UInt8)} {seen : List (List UInt8)} {root : ℕ}
    {keys : Set (List UInt8)} {g : WriteGuard} (h : KeysAt root keys g P) :
    wlp (Session.populateIndex (.watched storable) indexName cols unique rows seen root)
      (fun root' g' => ∃ keys', (∀ k, k ∈ keys' ↔ k ∈ keys ∨
          ∃ r ∈ rows, columnsKey cols r.1 r.2 = .ok (some k)) ∧
        (unique = true → Distinct cols rows seen) ∧ Turns (KeysAt root' keys') g P g') g := by
  induction rows generalizing seen root keys g P with
  | nil =>
      refine ⟨keys, fun k => ?_, fun _ => ⟨.nil, by simp⟩, Turns.refl h⟩
      simp
  | cons r rows ih =>
      obtain ⟨rowid, bytes⟩ := r
      unfold Session.populateIndex
      refine wlp_lift_bind fun vals hvals => wlp_ite (fun _ => wlp_throw) fun hfree => ?_
      have hkey : columnsKey cols rowid bytes = .ok (encodeCompositeIndexKey vals rowid) := by
        unfold columnsKey
        rw [hvals]
        rfl
      have hpre : columnsPrefix cols bytes = .ok (encodeCompositeValuePrefix vals) := by
        unfold columnsPrefix
        rw [hvals]
        rfl
      set pre := if unique then encodeCompositeValuePrefix vals else none with hset
      have hdistinct : Distinct cols rows (pre.toList ++ seen) → unique = true →
          Distinct cols ((rowid, bytes) :: rows) seen := by
        intro hrest hunique
        rw [if_pos hunique] at hset
        refine ⟨List.pairwise_cons.mpr ⟨fun r hr p hp hp' => ?_, hrest.apart⟩, fun r hr p hp => ?_⟩
        · refine hrest.fresh r hr p hp' (List.mem_append_left _ ?_)
          rw [hpre] at hp
          rw [hset, Except.ok.inj hp]
          exact List.mem_singleton.mpr rfl
        · rcases List.mem_cons.mp hr with rfl | hr
          · rw [hpre] at hp
            rw [hset, Except.ok.inj hp] at hfree
            simpa using hfree
          · exact fun hin => hrest.fresh r hr p hp (List.mem_append_right _ hin)
      cases hk : encodeCompositeIndexKey vals rowid with
      | none =>
          refine (ih h).post ?_
          rintro root' g' ⟨keys', hmem, hrest, hturn⟩
          refine ⟨keys', fun k => ?_, fun hunique => hdistinct (hrest hunique) hunique, hturn⟩
          rw [hmem, List.exists_mem_cons_iff, hkey, hk]
          simp
      | some key =>
          refine wp.bind (wp_insertKey_watched h) fun root₁ g₁ ⟨_, hturn₁⟩ => ?_
          obtain ⟨P₁, hP₁, hthen₁⟩ := hturn₁.next
          refine (ih hP₁).post ?_
          rintro root' g' ⟨keys', hmem, hrest, hturn⟩
          refine ⟨keys', fun k => ?_, fun hunique => hdistinct (hrest hunique) hunique,
            hthen₁ _ _ hturn⟩
          rw [hmem, List.exists_mem_cons_iff, hkey, hk, Set.mem_insert_iff]
          simp only [Except.ok.injEq, Option.some.injEq]
          constructor
          · rintro ((rfl | hin) | hin)
            · exact .inr (.inl rfl)
            · exact .inl hin
            · exact .inr (.inr hin)
          · rintro (hin | rfl | hin)
            · exact .inl (.inr hin)
            · exact .inl (.inl rfl)
            · exact .inr hin

variable (keyed) in
/-- **A new index** has the keys of the rows. -/
theorem wlp_createIndex {table indexName : String} {columns : List String} {unique : Bool}
    (h : TableAt s.state.rootPage s.state.indexes M s.file P) (hclean : s.file.writeState = ⟨∅, 0⟩)
    (hcolumns : columns ≠ []) :
    wlp (Session.createIndex (.watched storable) table indexName columns unique) (fun _ s' =>
      ∃ cols rows M' rootPage, resolveColumns s.state columns = some cols ∧
        Represents rows M.rows ∧ (unique = true → Distinct cols rows []) ∧ M'.rows = M.rows ∧
        s'.state = { s.state with indexes := s.state.indexes ++
          [{ name := indexName, columns, unique, rootPage }] } ∧
        TableStep storable keyed s s' P M M') s := by
  unfold Session.createIndex
  refine wlp_get_bind.mpr (wlp_ite (fun _ => wlp_throw) fun hfree => ?_)
  refine wlp_lift_bind fun cols hcols => wlp_lift_bind fun rows hrows => ?_
  have hresolve := findColumns_eq_ok hcols
  obtain ⟨Q, hQ, -⟩ := h.rowsTree
  obtain ⟨rows', hscan, hrep⟩ := hQ.holds.scanAll hclean
  rw [hscan] at hrows
  obtain rfl := Except.ok.inj hrows
  have hcreate : wlp IndexTreeWriter.create (fun root g' => Turns (KeysAt root ∅) s.file ∅ g') s.file :=
    wp_create_keysAt fun _ _ => trivial
  refine wp.bind (wlp_inGuard hcreate) ?_
  rintro root s₁ ⟨hs₁, hturn₁⟩
  -- the new tree is empty, and the rows are put in one by one
  obtain ⟨P₁, hP₁, hthen₁⟩ := hturn₁.next
  refine wp.bind (wlp_inGuard (wlp_populateIndex hP₁)) ?_
  rintro rootPage s₂ ⟨hs₂, keys, hmem, hdistinct, hturn₂⟩
  have hnew : Turns (KeysAt rootPage keys) s.file ∅ s₂.file := hthen₁ _ _ hturn₂
  set idx : IndexMeta := { name := indexName, columns, unique, rootPage } with hidx
  obtain ⟨P₂, hP₂, hthen₂⟩ := (@TableAt.newIndex _ _ _ idx _ _ _ _ _ h hnew).next
  refine wp.bind (wlp_commitWrite hP₂) ?_
  rintro _ s₃ ⟨hcommit, hturn₃⟩
  refine wlp_modifyState.mpr ?_
  have hstate : s₃.state = s.state := by rw [hcommit.eq, hs₂, hs₁]
  set M' : TableModel := { M with keys := Function.update M.keys s.state.indexes.length keys } with hM'
  refine ⟨cols, rows', M', rootPage, hresolve, hrep, hdistinct, rfl, by rw [hstate], hcommit.clean,
    fun hok => ?_, (by rw [hstate]), ?_⟩
  · dsimp only
    rw [hstate]
    have hnamed := resolveColumns_live hresolve
    refine ⟨hok.inv.same rfl, ?_, fun i hi => ?_, fun i hi => ?_, fun hkeyed i hi => ?_,
      fun hkeyed i idx' hi k => ?_⟩
    · dsimp only
      rw [List.map_append, List.nodup_append]
      refine ⟨hok.names, List.nodup_singleton _, fun a ha b hb hab => hfree ?_⟩
      obtain rfl := List.mem_singleton.mp hb
      subst hab
      obtain ⟨idx', hidx', hname⟩ := List.mem_map.mp ha
      unfold TableMeta.findIndex
      rw [List.find?_isSome]
      exact ⟨idx', hidx', by simpa using hname⟩
    · rcases List.mem_append.mp hi with hi | hi
      · exact hok.led i hi
      · obtain rfl := List.mem_singleton.mp hi
        exact hcolumns
    · rcases List.mem_append.mp hi with hi | hi
      · exact hok.live i hi
      · obtain rfl := List.mem_singleton.mp hi
        exact fun c hc => (hnamed c hc).1
    · rcases List.mem_append.mp hi with hi | hi
      · exact hok.typed hkeyed i hi
      · obtain rfl := List.mem_singleton.mp hi
        exact fun c hc => (hnamed c hc).2
    -- an old index has its old keys, the new one those that the scan put in
    · change (s.state.indexes ++ [idx])[i]? = some idx' at hi
      rcases Nat.lt_or_ge i s.state.indexes.length with hlt | hge
      · rw [List.getElem?_append_left hlt] at hi
        have hkeys : M'.keys i = M.keys i := Function.update_of_ne hlt.ne ..
        rw [hkeys]
        exact hok.indexed hkeyed i idx' hi k
      · rw [List.getElem?_append_right hge] at hi
        obtain ⟨hone, hi⟩ := List.getElem?_eq_some_iff.mp hi
        have hlast : i = s.state.indexes.length := by
          rw [List.length_singleton] at hone
          omega
        subst hlast
        obtain rfl : idx = idx' := by simpa using hi
        have hkeys : M'.keys s.state.indexes.length = keys := Function.update_self ..
        rw [hkeys, hmem]
        constructor
        · rintro (hin | ⟨r, hr, hkey⟩)
          · exact absurd hin (Set.notMem_empty k)
          · refine ⟨r.1, r.2, (hrep.mem_iff r.1 r.2).mp hr, ?_⟩
            exact (indexKey_resolved hresolve).trans hkey
        · rintro ⟨id, row, hrow, hkey⟩
          refine .inr ⟨(id, row), (hrep.mem_iff id row).mpr hrow, ?_⟩
          exact (indexKey_resolved hresolve).symm.trans hkey
  · dsimp only
    rw [hstate]
    exact hthen₂ _ _ hturn₃

variable (storable keyed) in
/-- **A dropped index.** -/
theorem wlp_dropIndex {indexName : String}
    (h : TableAt s.state.rootPage s.state.indexes M s.file P)
    (hclean : s.file.writeState = ⟨∅, 0⟩) :
    wlp (Session.dropIndex indexName) (fun _ s' => ∃ pos M', M'.rows = M.rows ∧
      s' = { s with state := { s.state with indexes := s.state.indexes.eraseIdx pos } } ∧
      TableStep storable keyed s s' P M M') s := by
  unfold Session.dropIndex
  refine wlp_get_bind.mpr ?_
  cases s.state.indexes.findIdx? fun idx => idx.name = indexName with
  | none => exact wlp_throw
  | some pos =>
      refine wlp_modifyState.mpr ⟨pos, { M with keys := fun i => M.keys (skipIndex pos i) }, rfl, rfl,
        hclean, fun hok => ?_, le_rfl, h.eraseIndex pos⟩
      have hsub : ∀ idx ∈ s.state.indexes.eraseIdx pos, idx ∈ s.state.indexes := fun idx hidx =>
        (List.eraseIdx_sublist ..).subset hidx
      refine ⟨hok.inv.same rfl, hok.names.sublist ((List.eraseIdx_sublist ..).map _),
        fun idx hidx => hok.led idx (hsub idx hidx), fun idx hidx => hok.live idx (hsub idx hidx),
        fun hkeyed idx hidx => hok.typed hkeyed idx (hsub idx hidx), fun hkeyed i idx hi k => ?_⟩
      dsimp only at hi
      rw [getElem?_eraseIdx_skip] at hi
      exact hok.indexed hkeyed _ idx hi k

variable (storable keyed) in
theorem wlp_addColumn {table : String} {column : ColumnDef}
    (h : TableAt s.state.rootPage s.state.indexes M s.file P)
    (hclean : s.file.writeState = ⟨∅, 0⟩) :
    wlp (Session.addColumn table column) (fun _ s' =>
      s.state.colNameToId column.name = none ∧ s' = { s with state := s.state.addColumn column } ∧
        TableStep storable keyed s s' P M M) s := by
  unfold Session.addColumn
  refine wlp_get_bind.mpr
    (wlp_ite (fun _ => wlp_throw) fun hnew => wlp_ite (fun _ => wlp_throw) fun _ => ?_)
  have hnone : s.state.colNameToId column.name = none := by
    rw [← Option.not_isSome_iff_eq_none]
    exact hnew
  refine wlp_modifyState.mpr ⟨hnone, rfl, ?_⟩
  exact TableStep.of_file h hclean rfl rfl le_rfl fun hok => hok.addColumn hnone

variable (storable keyed) in
theorem wlp_dropColumn {table name : String}
    (h : TableAt s.state.rootPage s.state.indexes M s.file P)
    (hclean : s.file.writeState = ⟨∅, 0⟩) :
    wlp (Session.dropColumn table name) (fun _ s' =>
      (s.state.colNameToId name).isSome ∧ s' = { s with state := s.state.dropColumn name } ∧
        TableStep storable keyed s s' P M M) s := by
  unfold Session.dropColumn
  refine wlp_get_bind.mpr (wlp_ite (fun _ => wlp_throw) fun hthere => ?_)
  have hsome : (s.state.colNameToId name).isSome := by
    rw [Option.isSome_iff_ne_none]
    simpa using hthere
  cases hfind : s.state.indexes.find? fun idx => name ∈ idx.columns with
  | some idx => exact wlp_throw
  | none =>
      have hfree : ∀ idx ∈ s.state.indexes, name ∉ idx.columns := by
        intro idx hidx hin
        exact List.find?_eq_none.mp hfind idx hidx (decide_eq_true hin)
      refine wlp_modifyState.mpr ⟨hsome, rfl, ?_⟩
      have hsame : (s.state.dropColumn name).rootPage = s.state.rootPage ∧
          (s.state.dropColumn name).indexes = s.state.indexes ∧
          (s.state.dropColumn name).nextRowid = s.state.nextRowid := by
        unfold TableMeta.dropColumn
        split
        · exact ⟨rfl, rfl, rfl⟩
        · exact ⟨rfl, rfl, rfl⟩
      exact TableStep.of_file h hclean hsame.1 (by rw [hsame.2.1]) hsame.2.2.ge
        fun hok => hok.dropColumn hfree

variable (storable keyed) in
theorem wlp_renameColumn {table old new : String}
    (h : TableAt s.state.rootPage s.state.indexes M s.file P)
    (hclean : s.file.writeState = ⟨∅, 0⟩) (hkeeps : keyed → KeepsTypes s.state old new) :
    wlp (Session.renameColumn table old new) (fun _ s' =>
      (s.state.colNameToId old).isSome ∧ s.state.colNameToId new = none ∧ s' = { s with state :=
        { s.state.renameColumn old new with
          indexes := (s.state.renameColumn old new).indexes.map (Session.renameIndexed old new) } } ∧
      TableStep storable keyed s s' P M M) s := by
  unfold Session.renameColumn
  refine wlp_get_bind.mpr
    (wlp_ite (fun _ => wlp_throw) fun hold => wlp_ite (fun _ => wlp_throw) fun hnew => ?_)
  have hsome : (s.state.colNameToId old).isSome := by
    rw [Option.isSome_iff_ne_none]
    simpa using hold
  have hnone : s.state.colNameToId new = none := by
    rw [← Option.not_isSome_iff_eq_none]
    exact hnew
  refine wlp_modifyState.mpr ⟨hsome, hnone, rfl, ?_⟩
  have hsame : (s.state.renameColumn old new).rootPage = s.state.rootPage ∧
      (s.state.renameColumn old new).indexes = s.state.indexes ∧
      (s.state.renameColumn old new).nextRowid = s.state.nextRowid := by
    unfold TableMeta.renameColumn
    split
    · exact ⟨rfl, rfl, rfl⟩
    · exact ⟨rfl, rfl, rfl⟩
  refine TableStep.of_file h hclean hsame.1 ?_ hsame.2.2.ge
    fun hok => hok.renameColumn hsome hnone hkeeps
  dsimp only
  rw [hsame.2.1, List.map_map]
  rfl

end

end BoogyDb
