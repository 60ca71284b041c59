import BoogyDb.ColumnNames
import BoogyDb.Find
import BoogyDb.RowRoundTrip
import BoogyDb.TableWrites
import Mathlib.Data.List.Perm.Subperm

/-!
# Logical columns

A `LogicalTable` is what a table is meant to hold: columns that are told apart by when
they were made, whatever they are called, and for each row the values last written to
them.  `LogicalTable.Models` says that a table and the bytes of its rows stand for it:
the logical column number `k` is the one in slot `k`.
-/

namespace BoogyDb

open Bytes

/-- A table by its logical columns. -/
structure LogicalTable where
  /-- The columns made so far; the next one gets this number. -/
  made : ℕ
  /-- The live columns by name. -/
  column : String → Option ℕ
  default : ℕ → Option Value
  /-- The values last written, for each row that is there. -/
  rows : UInt64 → Option (ℕ → Option Value)

namespace LogicalTable

def empty : LogicalTable := ⟨0, fun _ => none, fun _ => none, fun _ => none⟩

/-- Make a column; one that is made as dropped has no name. -/
def addColumn (L : LogicalTable) (col : ColumnDef) : LogicalTable :=
  { L with
    made := L.made + 1
    column := if col.dropped then L.column else Function.update L.column col.name (some L.made)
    default := Function.update L.default L.made col.default }

def create (columns : List ColumnDef) : LogicalTable := columns.foldl addColumn empty

def renameColumn (L : LogicalTable) (old new : String) : LogicalTable :=
  { L with column := Function.update (Function.update L.column old none) new (L.column old) }

def dropColumn (L : LogicalTable) (name : String) : LogicalTable :=
  { L with column := Function.update L.column name none }

/-- The value that `data` has for a column. -/
def written (L : LogicalTable) (data : RowData) (k : ℕ) : Option Value :=
  (data.find? fun d => L.column d.1 = some k).map Prod.snd

def insert (L : LogicalTable) (id : UInt64) (data : RowData) : LogicalTable :=
  { L with rows := Function.update L.rows id (some (L.written data)) }

def update (L : LogicalTable) (id : UInt64) (fields : RowData) : LogicalTable :=
  { L with
    rows := Function.update L.rows id
      ((L.rows id).map fun row k => (L.written fields k).or (row k)) }

/-- What a live column reads as in a row: the value last written, or the default. -/
def read (L : LogicalTable) (row : ℕ → Option Value) (name : String) : Option Value :=
  (L.column name).bind fun k => (row k).or (L.default k)

/-- A column that was made and that no name reaches. -/
def Retired (L : LogicalTable) (k : ℕ) : Prop := k < L.made ∧ ∀ name, L.column name ≠ some k

variable {L : LogicalTable} {k : ℕ}

theorem Retired.addColumn (h : L.Retired k) (col : ColumnDef) : (L.addColumn col).Retired k := by
  refine ⟨Nat.lt_succ_of_lt h.1, fun name hname => ?_⟩
  unfold LogicalTable.addColumn at hname
  dsimp only at hname
  split at hname
  · exact h.2 name hname
  · by_cases heq : name = col.name
    · subst heq
      rw [Function.update_self] at hname
      exact h.1.ne (Option.some.inj hname).symm
    · rw [Function.update_of_ne heq] at hname
      exact h.2 name hname

theorem Retired.renameColumn (h : L.Retired k) (old new : String) :
    (L.renameColumn old new).Retired k := by
  refine ⟨h.1, fun name hname => ?_⟩
  unfold LogicalTable.renameColumn at hname
  dsimp only at hname
  by_cases hnew : name = new
  · subst hnew
    rw [Function.update_self] at hname
    exact h.2 old hname
  · rw [Function.update_of_ne hnew] at hname
    by_cases hold : name = old
    · subst hold
      rw [Function.update_self] at hname
      cases hname
    · rw [Function.update_of_ne hold] at hname
      exact h.2 name hname

theorem Retired.dropColumn (h : L.Retired k) (old : String) : (L.dropColumn old).Retired k := by
  refine ⟨h.1, fun name hname => ?_⟩
  unfold LogicalTable.dropColumn at hname
  dsimp only at hname
  by_cases hold : name = old
  · subst hold
    rw [Function.update_self] at hname
    cases hname
  · rw [Function.update_of_ne hold] at hname
    exact h.2 name hname

/-- The value that `data` has for a column, when no name is given twice. -/
theorem written_eq_some {data : RowData} (hdata : (data.map Prod.fst).Nodup)
    (hone : ∀ name name', L.column name = some k → L.column name' = some k → name = name')
    {v : Value} :
    L.written data k = some v ↔ ∃ name, (name, v) ∈ data ∧ L.column name = some k := by
  unfold written
  rw [Option.map_eq_some_iff]
  constructor
  · rintro ⟨⟨name, v'⟩, hfind, rfl⟩
    exact ⟨name, List.mem_of_find?_eq_some hfind, by simpa using List.find?_some hfind⟩
  · rintro ⟨name, hmem, hcol⟩
    cases hfind : data.find? fun d => L.column d.1 = some k with
    | none =>
        rw [List.find?_eq_none] at hfind
        exact absurd (decide_eq_true hcol) (hfind _ hmem)
    | some d =>
        refine ⟨d, rfl, ?_⟩
        have hname : d.1 = name := by
          apply hone _ _ _ hcol
          simpa using List.find?_some hfind
        have heq : d = (name, v) :=
          List.inj_on_of_nodup_map hdata (List.mem_of_find?_eq_some hfind) hmem hname
        rw [heq]

end LogicalTable

/-! ## Rows -/

/-- The columns of a row stand for the values `vals` of a table with `made` columns. -/
structure StandFor (made : ℕ) (columns : List Column) (vals : ℕ → Option Value) : Prop where
  nodup : (columns.map Prod.fst).Nodup
  below : ∀ c ∈ columns, c.1.toNat < made
  data : (columnData columns).length < 65536
  vals : ∀ k v, vals k = some v ↔ ∃ i : UInt16, i.toNat = k ∧ (i, v) ∈ columns

/-- The bytes of a row, if it is there, stand for its values. -/
def RowStands (made : ℕ) (id : UInt64) :
    Option (List UInt8) → Option (ℕ → Option Value) → Prop
  | none, none => True
  | some bytes, some vals => ∃ columns, bytes = encodeRow id columns ∧ StandFor made columns vals
  | _, _ => False

section

variable {made : ℕ} {columns : List Column} {vals : ℕ → Option Value} {id : UInt64}

theorem StandFor.length_lt (h : StandFor made columns vals) (hmade : made < 65536) :
    columns.length < 65536 := by
  have hnodup : (columns.map fun c => c.1.toNat).Nodup := by
    have hmap := h.nodup.map fun a b => UInt16.toNat_inj.mp
    rwa [List.map_map] at hmap
  have hsub : (columns.map fun c => c.1.toNat) ⊆ List.range made := by
    intro k hk
    obtain ⟨c, hc, rfl⟩ := List.mem_map.mp hk
    exact List.mem_range.mpr (h.below c hc)
  have hle := (hnodup.subperm hsub).length_le
  rw [List.length_map, List.length_range] at hle
  exact hle.trans_lt hmade

theorem StandFor.mono (h : StandFor made columns vals) {made' : ℕ} (hle : made ≤ made') :
    StandFor made' columns vals :=
  ⟨h.nodup, fun c hc => (h.below c hc).trans_le hle, h.data, h.vals⟩

theorem StandFor.roundTrips (h : StandFor made columns vals) (hmade : made < 65536) :
    RowRoundTrips id columns := by
  have hfew := h.length_lt hmade
  refine roundTrips_of_offsetsLand h.nodup ?_ (offsetsLand_of_length_le hfew h.data.le)
  rw [length_encodeRow]
  have hdata := h.data
  have hdir : dirStart = 10 := rfl
  omega

/-- Reading a slot of the row gives the value last written to its column. -/
theorem StandFor.extractColumn (h : StandFor made columns vals) (hmade : made < 65536)
    (i : UInt16) : extractColumn (encodeRow id columns) i = .ok (vals i.toNat) := by
  have htrips : RowRoundTrips id columns := h.roundTrips hmade
  cases hv : vals i.toNat with
  | some v =>
      obtain ⟨j, hj, hmem⟩ := (h.vals _ v).mp hv
      rw [UInt16.toNat_inj] at hj
      subst hj
      exact htrips.present j v hmem
  | none =>
      apply htrips.absent
      intro hmem
      obtain ⟨⟨j, v⟩, hc, rfl⟩ := List.mem_map.mp hmem
      have hsome := (h.vals _ v).mpr ⟨j, rfl, hc⟩
      rw [hv] at hsome
      cases hsome

/-! ## Columns that are written -/

theorem mem_columnValues {state : TableMeta} {data : RowData} {i : UInt16} {v : Value} :
    (i, v) ∈ columnValues state data ↔
      ∃ name, (name, v) ∈ data ∧ state.colNameToId name = some i := by
  unfold columnValues
  rw [List.mem_filterMap]
  constructor
  · rintro ⟨⟨name, v'⟩, hmem, hcol⟩
    obtain ⟨i', hi', heq⟩ := Option.map_eq_some_iff.mp hcol
    cases heq
    exact ⟨name, hmem, hi'⟩
  · rintro ⟨name, hmem, hcol⟩
    refine ⟨(name, v), hmem, ?_⟩
    change (state.colNameToId name).map _ = _
    rw [hcol]
    rfl

/-- Different names are different columns. -/
theorem nodup_columnValues {state : TableMeta} {data : RowData} (hstate : state.InStep)
    (hdata : (data.map Prod.fst).Nodup) : ((columnValues state data).map Prod.fst).Nodup := by
  induction data with
  | nil => exact List.nodup_nil
  | cons d data ih =>
      rw [List.map_cons, List.nodup_cons] at hdata
      have hrest := ih hdata.2
      unfold columnValues at hrest ⊢
      rw [List.filterMap_cons]
      cases hid : state.colId d.1 with
      | none => exact hrest
      | some i =>
          refine List.nodup_cons.mpr ⟨fun hmem => hdata.1 ?_, hrest⟩
          obtain ⟨⟨j, v⟩, hc, rfl⟩ := List.mem_map.mp hmem
          obtain ⟨name, hname, hj⟩ := mem_columnValues.mp hc
          have hd := (hstate.ids _ _).mp hid
          have hn := (hstate.ids _ _).mp hj
          rw [hd.name_unique hn]
          exact List.mem_map_of_mem hname

/-- The map that `collectColumns` fills. -/
def columnMap (columns : List Column) : AList fun _ : UInt16 => Value :=
  columns.foldl (fun map c => map.insert c.1 c.2) ∅

theorem columnMap_concat (columns : List Column) (c : Column) :
    columnMap (columns ++ [c]) = (columnMap columns).insert c.1 c.2 := by
  unfold columnMap
  rw [List.foldl_append]
  rfl

theorem mem_collectColumns {i : UInt16} {v : Value} :
    (i, v) ∈ collectColumns columns ↔ (columnMap columns).lookup i = some v := by
  rw [← Option.mem_def, AList.mem_lookup_iff]
  unfold collectColumns columnMap
  rw [List.mem_map]
  constructor
  · rintro ⟨⟨j, w⟩, hmem, heq⟩
    cases heq
    exact hmem
  · intro hmem
    exact ⟨⟨i, v⟩, hmem, rfl⟩

theorem nodup_collectColumns (columns : List Column) :
    ((collectColumns columns).map Prod.fst).Nodup := by
  have hkeys := (columnMap columns).nodupKeys
  rw [List.NodupKeys, List.keys] at hkeys
  unfold collectColumns
  rw [List.map_map]
  exact hkeys

theorem lookup_columnMap {i : UInt16} {v : Value} (hnodup : (columns.map Prod.fst).Nodup) :
    (columnMap columns).lookup i = some v ↔ (i, v) ∈ columns := by
  induction columns using List.reverseRecOn with
  | nil => simp [columnMap]
  | append_singleton columns c ih =>
      rw [List.map_append, List.nodup_append] at hnodup
      obtain ⟨hbefore, -, hnew⟩ := hnodup
      rw [columnMap_concat, List.mem_append, List.mem_singleton]
      by_cases hi : i = c.1
      · subst hi
        rw [AList.lookup_insert, Option.some_inj]
        constructor
        · rintro rfl
          exact .inr rfl
        · rintro (hmem | heq)
          · exact (hnew _ (List.mem_map_of_mem hmem) c.1 (by simp) rfl).elim
          · rw [← heq]
      · rw [AList.lookup_insert_ne hi, ih hbefore]
        refine (or_iff_left ?_).symm
        rintro rfl
        exact hi rfl

/-- Of the columns that are collected, those of the second list stay. -/
theorem lookup_columnMap_append {old new : List Column} {i : UInt16}
    (hnew : (new.map Prod.fst).Nodup) : (columnMap (old ++ new)).lookup i =
      ((columnMap new).lookup i).or ((columnMap old).lookup i) := by
  induction new using List.reverseRecOn with
  | nil => simp [columnMap]
  | append_singleton new c ih =>
      rw [List.map_append, List.nodup_append] at hnew
      rw [← List.append_assoc, columnMap_concat, columnMap_concat]
      by_cases hi : i = c.1
      · subst hi
        rw [AList.lookup_insert, AList.lookup_insert]
        rfl
      · rw [AList.lookup_insert_ne hi, AList.lookup_insert_ne hi, ih hnew.1]

end

/-! ## Tables -/

namespace LogicalTable

/-- A table and the bytes of its rows stand for a logical table. -/
structure Models (L : LogicalTable) (state : TableMeta) (rows : UInt64 → Option (List UInt8)) :
    Prop where
  inStep : state.InStep
  made : L.made = state.columns.length
  column : ∀ name k, L.column name = some k ↔ state.LiveAt name k
  default : ∀ k, L.default k = (state.columns[k]?).bind ColumnDef.default
  rows : ∀ id, RowStands L.made id (rows id) (L.rows id)

variable {L : LogicalTable} {state state' : TableMeta} {rows : UInt64 → Option (List UInt8)}

theorem Models.made_lt (h : L.Models state rows) : L.made < 65536 := h.made ▸ h.inStep.few

/-- Another state of the same schema. -/
theorem Models.sameColumns (h : L.Models state rows) (hcolumns : state'.columns = state.columns)
    (hids : state'.colNameToId = state.colNameToId) (hnames : state'.colNames = state.colNames)
    (hdefs : state'.colDefs = state.colDefs) : L.Models state' rows := by
  have hlive : ∀ name k, state'.LiveAt name k ↔ state.LiveAt name k := by
    intro name k
    unfold TableMeta.LiveAt
    rw [hcolumns]
  refine ⟨⟨fun name i => ?_, ?_, ?_, ?_⟩, ?_, fun name k => ?_, fun k => ?_, h.rows⟩
  · rw [hids, hlive, h.inStep.ids]
  · rw [hcolumns]
    exact h.inStep.few
  · rw [hnames, hcolumns, h.inStep.colNames]
  · rw [hdefs, hcolumns, h.inStep.colDefs]
  · rw [h.made, hcolumns]
  · rw [h.column, hlive]
  · rw [h.default, hcolumns]

/-- The default of a column is kept by every change of its slot. -/
theorem default_modify {columns : List ColumnDef} {i : ℕ} {f : ColumnDef → ColumnDef}
    (hf : ∀ c, (f c).default = c.default) (k : ℕ) :
    ((columns.modify i f)[k]?).bind ColumnDef.default = (columns[k]?).bind ColumnDef.default := by
  by_cases hk : i = k
  · subst hk
    rw [List.getElem?_modify_eq]
    cases columns[i]? with
    | none => rfl
    | some c => exact hf c
  · rw [List.getElem?_modify_ne _ _ hk]

/-- A slot is appended. -/
theorem Models.append (h : L.Models state rows) {col : ColumnDef}
    (hcolumns : state'.columns = state.columns ++ [col]) (hstep : state'.InStep) :
    (L.addColumn col).Models state' rows := by
  have hlive : ∀ name k, state'.LiveAt name k ↔
      state.LiveAt name k ∨ k = state.columns.length ∧ col.name = name ∧ col.dropped = false := by
    intro name k
    have hadd := @TableMeta.liveAt_addColumn state name k col
    unfold TableMeta.LiveAt at hadd ⊢
    rw [hcolumns]
    exact hadd
  refine ⟨hstep, ?_, fun name k => ?_, fun k => ?_, fun id => ?_⟩
  · change L.made + 1 = state'.columns.length
    rw [h.made, hcolumns, List.length_append, List.length_singleton]
  · rw [hlive]
    unfold LogicalTable.addColumn
    dsimp only
    cases hdropped : col.dropped with
    | true =>
        rw [if_pos rfl, h.column]
        simp
    | false =>
        rw [if_neg (by simp)]
        by_cases hname : name = col.name
        · subst hname
          rw [Function.update_self, Option.some_inj, h.made]
          have hnew : state'.LiveAt col.name state.columns.length :=
            (hlive _ _).mpr (.inr ⟨rfl, rfl, hdropped⟩)
          constructor
          · rintro rfl
            exact .inr ⟨rfl, rfl, rfl⟩
          · rintro (hk | ⟨rfl, -, -⟩)
            · exact hstep.slot_unique hnew ((hlive _ _).mpr (.inl hk))
            · rfl
        · rw [Function.update_of_ne hname, h.column]
          exact (or_iff_left fun hk => hname hk.2.1.symm).symm
  · change Function.update L.default L.made col.default k = _
    rw [hcolumns, h.made]
    rcases lt_trichotomy k state.columns.length with hlt | rfl | hgt
    · rw [Function.update_of_ne hlt.ne, h.default, List.getElem?_append_left hlt]
    · simp
    · rw [Function.update_of_ne hgt.ne', h.default, List.getElem?_eq_none hgt.le,
        List.getElem?_eq_none (by simp; omega)]
  · have hrow := h.rows id
    change RowStands (L.made + 1) id (rows id) (L.rows id)
    unfold RowStands at hrow ⊢
    split at hrow
    · trivial
    · obtain ⟨columns, hbytes, hstand⟩ := hrow
      exact ⟨columns, hbytes, hstand.mono (Nat.le_succ _)⟩
    · exact hrow.elim

theorem Models.addColumn (h : L.Models state rows) {col : ColumnDef}
    (hfree : state.colNameToId col.name = none) (hlive : col.dropped = false)
    (hfew : state.columns.length + 1 < 65536) :
    (L.addColumn col).Models (state.addColumn col) rows :=
  h.append rfl (h.inStep.addColumn hfree hlive hfew)

/-- **A new table** has the logical columns it was created with, and no rows. -/
theorem Models.create {name : String} {tableId : UInt32} {root : ℕ} (columns : List ColumnDef)
    (hnames : (columns.map ColumnDef.name).Nodup) (hfew : columns.length < 65536) :
    (LogicalTable.create columns).Models (TableMeta.new name tableId columns root)
      fun _ => none := by
  induction columns using List.reverseRecOn with
  | nil =>
      refine ⟨TableMeta.InStep.new [] hnames hfew, rfl, fun name k => ?_, fun k => rfl,
        fun id => trivial⟩
      refine iff_of_false (by simp [LogicalTable.create, empty]) ?_
      rintro ⟨c, hc, -⟩
      simp [TableMeta.new] at hc
  | append_singleton columns c ih =>
      have hstep : (TableMeta.new name tableId (columns ++ [c]) root).InStep := .new _ hnames hfew
      rw [List.map_append, List.nodup_append] at hnames
      rw [List.length_append] at hfew
      have hbefore := ih hnames.1 (Nat.lt_of_succ_lt hfew)
      have hcreate : LogicalTable.create (columns ++ [c]) =
          (LogicalTable.create columns).addColumn c := List.foldl_concat ..
      rw [hcreate]
      exact hbefore.append rfl hstep

theorem Models.renameColumn (h : L.Models state rows) {old new : String}
    (hold : (state.colNameToId old).isSome) (hfree : state.colNameToId new = none) :
    (L.renameColumn old new).Models (state.renameColumn old new) rows := by
  obtain ⟨i, hid⟩ := Option.isSome_iff_exists.mp hold
  have hat : state.LiveAt old i.toNat := (h.inStep.ids old i).mp hid
  refine ⟨h.inStep.renameColumn old hfree, ?_, fun name k => ?_, fun k => ?_, h.rows⟩
  · rw [TableMeta.renameColumn_of_some hid]
    change L.made = (state.columns.modify _ _).length
    rw [List.length_modify]
    exact h.made
  · rw [TableMeta.liveAt_renameColumn hid]
    unfold LogicalTable.renameColumn
    dsimp only
    by_cases hnew : name = new
    · subst hnew
      rw [Function.update_self, (h.column old i.toNat).mpr hat, Option.some_inj]
      constructor
      · rintro rfl
        rw [if_pos rfl]
        exact ⟨rfl, old, hat⟩
      · intro hk
        split at hk
        · rename_i heq
          exact heq.symm
        · exact (h.inStep.not_liveAt hfree hk).elim
    · rw [Function.update_of_ne hnew]
      by_cases hname : name = old
      · subst hname
        rw [Function.update_self]
        refine iff_of_false (by simp) fun hk => ?_
        split at hk
        · exact hnew hk.1
        · rename_i hne
          exact hne (h.inStep.slot_unique hk hat)
      · rw [Function.update_of_ne hname, h.column]
        split
        · rename_i heq
          refine iff_of_false (fun hk => hname ?_) fun hk => hnew hk.1
          rw [heq] at hk
          exact hk.name_unique hat
        · rfl
  · rw [TableMeta.renameColumn_of_some hid]
    refine (h.default k).trans (Eq.symm ?_)
    apply default_modify
    intro c
    rfl

theorem Models.dropColumn (h : L.Models state rows) {old : String}
    (hold : (state.colNameToId old).isSome) :
    (L.dropColumn old).Models (state.dropColumn old) rows := by
  obtain ⟨i, hid⟩ := Option.isSome_iff_exists.mp hold
  have hat : state.LiveAt old i.toNat := (h.inStep.ids old i).mp hid
  refine ⟨h.inStep.dropColumn old, ?_, fun name k => ?_, fun k => ?_, h.rows⟩
  · rw [TableMeta.dropColumn_of_some hid]
    change L.made = (state.columns.modify _ _).length
    rw [List.length_modify]
    exact h.made
  · rw [TableMeta.liveAt_dropColumn hid]
    unfold LogicalTable.dropColumn
    dsimp only
    by_cases hname : name = old
    · subst hname
      rw [Function.update_self]
      refine iff_of_false (by simp) ?_
      rintro ⟨hk, hne⟩
      exact hne (h.inStep.slot_unique hk hat)
    · rw [Function.update_of_ne hname, h.column]
      refine (and_iff_left_of_imp fun hk heq => hname ?_).symm
      rw [heq] at hk
      exact hk.name_unique hat
  · rw [TableMeta.dropColumn_of_some hid]
    refine (h.default k).trans (Eq.symm ?_)
    apply default_modify
    intro c
    rfl

/-! ### Rows that are written -/

/-- The columns that a call writes stand for the values it writes. -/
theorem Models.columnValues (h : L.Models state rows) {data : RowData}
    (hdata : (data.map Prod.fst).Nodup) (k : ℕ) (v : Value) : L.written data k = some v ↔
      ∃ i : UInt16, i.toNat = k ∧ (i, v) ∈ columnValues state data := by
  have hone : ∀ name name', L.column name = some k → L.column name' = some k → name = name' :=
    fun name name' hk hk' => ((h.column _ _).mp hk).name_unique ((h.column _ _).mp hk')
  rw [written_eq_some hdata hone]
  constructor
  · rintro ⟨name, hmem, hcol⟩
    have hat := (h.column name k).mp hcol
    exact ⟨UInt16.ofNat k, h.inStep.toNat_ofNat hat.lt,
      mem_columnValues.mpr ⟨name, hmem, h.inStep.colId_eq hat⟩⟩
  · rintro ⟨i, rfl, hmem⟩
    obtain ⟨name, hname, hid⟩ := mem_columnValues.mp hmem
    exact ⟨name, hname, (h.column _ _).mpr ((h.inStep.ids name i).mp hid)⟩

theorem Models.below_columnValues (h : L.Models state rows) {data : RowData} {c : Column}
    (hc : c ∈ BoogyDb.columnValues state data) : c.1.toNat < L.made := by
  obtain ⟨name, -, hid⟩ := mem_columnValues.mp hc
  rw [h.made]
  exact ((h.inStep.ids _ _).mp hid).lt

/-- One row changes. -/
theorem Models.updateRow (h : L.Models state rows) {id : UInt64} {columns : List Column}
    {vals : ℕ → Option Value} (hstand : StandFor L.made columns vals) :
    LogicalTable.Models { L with rows := Function.update L.rows id (some vals) } state
      (Function.update rows id (some (encodeRow id columns))) := by
  refine ⟨h.inStep, h.made, h.column, h.default, fun id' => ?_⟩
  dsimp only
  by_cases hid : id' = id
  · subst hid
    rw [Function.update_self, Function.update_self]
    exact ⟨columns, rfl, hstand⟩
  · rw [Function.update_of_ne hid, Function.update_of_ne hid]
    exact h.rows id'

theorem Models.insert (h : L.Models state rows) (id : UInt64) {data : RowData}
    (hdata : (data.map Prod.fst).Nodup)
    (hsize : (columnData (BoogyDb.columnValues state data)).length < 65536) :
    (L.insert id data).Models state (Function.update rows id
      (some (encodeRow id (BoogyDb.columnValues state data)))) :=
  h.updateRow ⟨nodup_columnValues h.inStep hdata, fun _ => h.below_columnValues, hsize,
    h.columnValues hdata⟩

/-- A row that is merged with new columns. -/
theorem Models.merged (h : L.Models state rows) {fields : RowData} {old existing : List Column}
    {vals : ℕ → Option Value} (hstand : StandFor L.made old vals) (hperm : existing.Perm old)
    (hfields : (fields.map Prod.fst).Nodup)
    (hsize : (columnData (collectColumns
      (existing ++ BoogyDb.columnValues state fields))).length < 65536) :
    StandFor L.made (collectColumns (existing ++ BoogyDb.columnValues state fields))
      fun k => (L.written fields k).or (vals k) := by
  have hnew := nodup_columnValues h.inStep hfields
  have hold : (existing.map Prod.fst).Nodup := (hperm.map Prod.fst).nodup_iff.mpr hstand.nodup
  have hmem : ∀ i v, (i, v) ∈ collectColumns (existing ++ BoogyDb.columnValues state fields) ↔
      ((columnMap (BoogyDb.columnValues state fields)).lookup i).or
        ((columnMap existing).lookup i) = some v := by
    intro i v
    rw [mem_collectColumns, lookup_columnMap_append hnew]
  have hwritten : ∀ i : UInt16, L.written fields i.toNat =
      (columnMap (BoogyDb.columnValues state fields)).lookup i := by
    intro i
    apply Option.ext
    intro v
    rw [h.columnValues hfields, lookup_columnMap hnew]
    constructor
    · rintro ⟨j, hj, hmem⟩
      rwa [UInt16.toNat_inj.mp hj] at hmem
    · exact fun hmem => ⟨i, rfl, hmem⟩
  have hvals : ∀ i : UInt16, vals i.toNat = (columnMap existing).lookup i := by
    intro i
    apply Option.ext
    intro v
    rw [hstand.vals, lookup_columnMap hold, hperm.mem_iff]
    constructor
    · rintro ⟨j, hj, hmem⟩
      rwa [UInt16.toNat_inj.mp hj] at hmem
    · exact fun hmem => ⟨i, rfl, hmem⟩
  refine ⟨nodup_collectColumns _, ?_, hsize, fun k v => ?_⟩
  · rintro ⟨i, v⟩ hc
    rw [hmem, Option.or_eq_some_iff] at hc
    rcases hc with hc | ⟨-, hc⟩
    · exact h.below_columnValues ((lookup_columnMap hnew).mp hc)
    · exact hstand.below _ (hperm.mem_iff.mp ((lookup_columnMap hold).mp hc))
  · constructor
    · intro hv
      have hlt : k < L.made := by
        rw [Option.or_eq_some_iff] at hv
        rcases hv with hv | ⟨-, hv⟩
        · obtain ⟨i, rfl, hc⟩ := (h.columnValues hfields k v).mp hv
          exact h.below_columnValues hc
        · obtain ⟨i, rfl, hc⟩ := (hstand.vals k v).mp hv
          exact hstand.below _ hc
      have htoNat : (UInt16.ofNat k).toNat = k :=
        UInt16.toNat_ofNat_of_lt' (hlt.trans h.made_lt)
      refine ⟨UInt16.ofNat k, htoNat, (hmem _ _).mpr ?_⟩
      rw [← hwritten, ← hvals, htoNat]
      exact hv
    · rintro ⟨i, rfl, hc⟩
      rw [hwritten, hvals]
      exact (hmem i v).mp hc

theorem Models.update (h : L.Models state rows) {id : UInt64} {bytes : List UInt8}
    (hrow : rows id = some bytes) {fields : RowData} {existing : DecodedRow}
    (hdecode : decodeRow bytes = .ok existing) (hfields : (fields.map Prod.fst).Nodup)
    (hsize : (columnData (collectColumns
      (existing.columns ++ BoogyDb.columnValues state fields))).length < 65536) :
    (L.update id fields).Models state (Function.update rows id (some (encodeRow id
      (collectColumns (existing.columns ++ BoogyDb.columnValues state fields))))) := by
  have hstands := h.rows id
  rw [hrow] at hstands
  cases hvals : L.rows id with
  | none =>
      rw [hvals] at hstands
      exact hstands.elim
  | some vals =>
      rw [hvals] at hstands
      obtain ⟨columns, rfl, hstand⟩ := hstands
      have htrips : RowRoundTrips id columns := hstand.roundTrips h.made_lt
      obtain ⟨row, hrow', -, hperm, -⟩ := htrips.decode
      rw [hdecode] at hrow'
      obtain rfl := Except.ok.inj hrow'
      unfold LogicalTable.update
      rw [hvals]
      exact h.updateRow (h.merged hstand hperm hfields hsize)

/-- A call on a row that is not there writes nothing. -/
theorem update_absent {id : UInt64} (hrow : L.rows id = none) (fields : RowData) :
    L.update id fields = L := by
  unfold LogicalTable.update
  rw [hrow, Option.map_none, ← hrow, Function.update_eq_self]

/-! ### Reading -/

theorem extractId_encodeRow (id : UInt64) (columns : List Column) :
    extractId (encodeRow id columns) = .ok id := by
  have hlen := length_encodeRow id columns
  unfold extractId
  rw [ensureBytes_ok (by omega), ok_bind, readRowid_encodeRow]

/-- What `Row::get` looks for in the names and definitions of a table. -/
theorem liveColumn_test {k : ℕ} {name : String} (hstep : state.InStep) :
    (decide (state.colNames[k]? = some name) &&
      ((state.colDefs[k]?).map fun d => !d.dropped).getD false) = true ↔ state.LiveAt name k := by
  rw [hstep.colNames, hstep.colDefs, Bool.and_eq_true, decide_eq_true_iff, List.getElem?_map]
  unfold TableMeta.LiveAt
  cases state.columns[k]? with
  | none => simp
  | some c => simp

/-- The slot that `Row::get` finds for a name. -/
theorem Models.liveColumn_eq (h : L.Models state rows) (name : String) :
    liveColumn state.colNames state.colDefs name = L.column name := by
  unfold liveColumn
  cases hcol : L.column name with
  | none =>
      rw [List.find?_eq_none]
      intro k _ htest
      have hk := (h.column name k).mpr ((liveColumn_test h.inStep).mp htest)
      rw [hcol] at hk
      cases hk
  | some k =>
      have hk : state.LiveAt name k := (h.column name k).mp hcol
      rw [List.find?_range_eq_some]
      refine ⟨(liveColumn_test h.inStep).mpr hk, ?_, fun j hj => ?_⟩
      · rw [List.mem_range, h.inStep.colNames, List.length_map]
        exact hk.lt
      · rw [Bool.not_eq_true', ← Bool.not_eq_true, liveColumn_test h.inStep]
        exact fun hlive => hj.ne (h.inStep.slot_unique hlive hk)

/-- **A row reads as the logical table has it.** -/
theorem Models.get_eq (h : L.Models state rows) {id : UInt64} {columns : List Column}
    {vals : ℕ → Option Value} (hstand : StandFor L.made columns vals) {name : String}
    (hname : name ≠ autoIdCol) :
    (⟨id, encodeRow id columns⟩ : Row).get state.colNames state.colDefs name =
      .ok (L.read vals name) := by
  unfold Row.get read
  rw [if_neg hname, h.liveColumn_eq]
  cases hcol : L.column name with
  | none => rfl
  | some k =>
      have hk : state.LiveAt name k := (h.column name k).mp hcol
      have htoNat := h.inStep.toNat_ofNat hk.lt
      dsimp only [Option.bind_some]
      rw [hstand.extractColumn h.made_lt, htoNat]
      cases hv : vals k with
      | some v => rfl
      | none =>
          rw [h.inStep.colDefs]
          exact congrArg Except.ok (h.default k).symm

end LogicalTable

end BoogyDb
