import BoogyDb.CheckedRuns
import BoogyDb.LogicalTable

/-!
# Schema evolution

Rows are never rewritten when the columns of a table change.  Here the calls that change
the columns and those that write rows run on a table in any order, next to the logical
table that they are meant to change.  `logical_columns_kept` says that every row reads as
the logical table has it, in every state of a run that adds no column as dropped.

The trees are those of the program.  Their insertions are watched, so a call that
returns found a tree that stores the row as it was written.
-/

namespace BoogyDb

open Bytes Wp

section

variable [Crc32Fast]

/-! ## Runs -/

/-- The calls that change the columns of a table, and those that write single rows. -/
inductive ColumnCall
  | addColumn (column : ColumnDef)
  | renameColumn (old new : String)
  | dropColumn (name : String)
  | insert (data : RowData)
  | update (id : UInt64) (fields : RowData)

namespace ColumnCall

def call (table : String) : ColumnCall → Call
  | .addColumn column => .addColumn table column
  | .renameColumn old new => .renameColumn table old new
  | .dropColumn name => .dropColumn table name
  | .insert data => .row table (.insert data)
  | .update id fields => .row table (.update id fields)

/-- What a call that returned does to the logical table. -/
def apply (L : LogicalTable) : ColumnCall → Reply → LogicalTable
  | .addColumn column, _ => L.addColumn column
  | .renameColumn old new, _ => L.renameColumn old new
  | .dropColumn name, _ => L.dropColumn name
  | .insert data, .rowid id => L.insert id data
  | .insert _, _ => L
  | .update id fields, _ => L.update id fields

/-- No column is called `_id`, there are fewer than `2^16` slots, no name is written
twice, and the columns of a row take fewer than `2^16` bytes. -/
def Bounded (db : Db) (state : TableMeta) : ColumnCall → Prop
  | .addColumn column => column.name ≠ autoIdCol ∧ state.columns.length + 1 < 65536
  | .renameColumn _ new => new ≠ autoIdCol
  | .dropColumn _ => True
  | .insert data => (data.map Prod.fst).Nodup ∧
      (columnData (columnValues state data)).length < 65536
  | .update id fields => (fields.map Prod.fst).Nodup ∧ ∀ bytes existing,
      BTreeReader.search db.file state.rootPage id = .ok (some bytes) →
      decodeRow bytes = .ok existing →
      (columnData (collectColumns (existing.columns ++ columnValues state fields))).length < 65536

/-- The call adds no column that is marked as dropped. -/
def AddsLive : ColumnCall → Prop
  | .addColumn column => column.dropped = false
  | _ => True

end ColumnCall

/-- A database, and what one of its tables is meant to hold. -/
abbrev Evolving := Db × LogicalTable

/-- A call on a table: it returns, it is refused by its checks, or it fails in its own
transaction and is rolled back. -/
inductive ColumnStep (table : String) (admits : ColumnCall → Prop) : Evolving → Evolving → Prop
  | returned {db db' : Db} {L : LogicalTable} {state : TableMeta} {call : ColumnCall} {reply : Reply}
      (hname : db.tables.lookup table = some state) (hbound : call.Bounded db state)
      (hadmits : admits call) (h : (call.call table).perform (.watched Storable) db = .ok reply db') :
      ColumnStep table admits (db, L) (db', call.apply L reply)
  | refused {db : Db} {L : LogicalTable} {call : ColumnCall} {e : Fault}
      (hbody : (call.call table).body .code db = none)
      (hchecks : (call.call table).checks db = .error e) :
      ColumnStep table admits (db, L) (stateAfter ((call.call table).perform .code) db, L)
  | rolledBack {db : Db} {L : LogicalTable} {call : ColumnCall}
      {body : StateResult InTransaction Reply} {e : Fault} {s : InTransaction}
      (hbody : (call.call table).body .code db = some body) (h : body db.beginAcid = .error e s)
      (hleft : s.db.file.writeState = ⟨∅, 0⟩) :
      ColumnStep table admits (db, L) (stateAfter ((call.call table).perform .code) db, L)

/-- The table was just created, with distinct names. -/
def Created (table : String) (s : Evolving) : Prop :=
  ∃ db columns reply, Reaches Storable False db ∧ (columns.map ColumnDef.name).Nodup ∧
    (∀ c ∈ columns, c.name ≠ autoIdCol) ∧ columns.length < 65536 ∧
    (Call.createTable table columns).perform (.watched Storable) db = .ok reply s.1 ∧
    s.2 = .create columns

/-- The maps of the table agree with its columns, its live columns are those of the
logical table, and every row reads as the logical table has it. -/
def ColumnsKept (table : String) (s : Evolving) : Prop :=
  ∃ state, s.1.tables.lookup table = some state ∧ state.InStep ∧
    Set.BijOn state.colNameToId state.liveColumnNames
      ((fun k => some (UInt16.ofNat k)) '' state.livePositions) ∧
    (∀ name, name ∈ state.liveColumnNames ↔ (s.2.column name).isSome) ∧
    ∀ id, match s.2.rows id with
      | none => s.1.get? table id = .ok none
      | some vals => ∃ row, s.1.get? table id = .ok (some row) ∧ ∀ name, name ≠ autoIdCol →
          row.get state.colNames state.colDefs name = .ok (s.2.read vals name)

/-! ## The invariant -/

/-- The table of the database stands for the logical table. -/
def Stands (table : String) (s : Evolving) : Prop :=
  ∃ Ms state, DbInv Storable False s.1 Ms ∧ s.1.tables.lookup table = some state ∧
    s.2.Models state (Ms table).rows

variable {table : String} {db db' : Db} {L : LogicalTable} {Ms : String → TableModel}
  {state : TableMeta} {s s' : Evolving}

theorem DbInv.search {storable : UInt64 → List UInt8 → Prop} {keyed : Prop}
    (h : DbInv storable keyed db Ms) (hname : db.tables.lookup table = some state) (id : UInt64) :
    BTreeReader.search db.file state.rootPage id = .ok ((Ms table).rows id) := by
  obtain ⟨started, hok⟩ := h.ok
  obtain ⟨-, P, hP, -⟩ := hok.table hname
  exact @search_tableAt _ (db.session state) _ P _ _ hP h.clean id

theorem Stands.kept (h : Stands table s) : ColumnsKept table s := by
  obtain ⟨Ms, state, hinv, hname, hmodels⟩ := h
  refine ⟨state, hname, hmodels.inStep, hmodels.inStep.bijOn, fun name => ?_, fun id => ?_⟩
  · constructor
    · rintro ⟨k, hk⟩
      exact Option.isSome_iff_exists.mpr ⟨k, (hmodels.column name k).mpr hk⟩
    · intro hsome
      obtain ⟨k, hk⟩ := Option.isSome_iff_exists.mp hsome
      exact ⟨k, (hmodels.column name k).mp hk⟩
  · have hrow := hmodels.rows id
    unfold Db.get?
    rw [hname]
    dsimp only
    rw [hinv.search hname, ok_bind]
    cases hvals : s.2.rows id with
    | none =>
        rw [hvals] at hrow
        cases hbytes : (Ms table).rows id with
        | none => rfl
        | some bytes =>
            rw [hbytes] at hrow
            exact hrow.elim
    | some vals =>
        rw [hvals] at hrow
        cases hbytes : (Ms table).rows id with
        | none =>
            rw [hbytes] at hrow
            exact hrow.elim
        | some bytes =>
            rw [hbytes] at hrow
            obtain ⟨columns, rfl, hstand⟩ := hrow
            refine ⟨⟨id, encodeRow id columns⟩, ?_, fun name hne => hmodels.get_eq hstand hne⟩
            dsimp only
            unfold Row.fromRaw
            rw [LogicalTable.extractId_encodeRow]
            rfl

/-- A new table. -/
theorem Created.stands (h : Created table s) : Stands table s := by
  obtain ⟨db, columns, reply, hreach, hnames, -, hfew, hcall, hL⟩ := h
  obtain ⟨Ms, hinv⟩ := hreach.inv fun _ _ => id
  obtain ⟨_, -, root, -, htables, hinv'⟩ := (wlp_replied (wlp_createTable_new hinv)).ok hcall
  refine ⟨_, TableMeta.new table db.nextTableId columns root, hinv', ?_, ?_⟩
  · rw [htables, AList.lookup_insert]
  · rw [hL, Function.update_self]
    exact .create columns hnames hfew

/-! ### Changes of the schema -/

/-- A change of the schema that both tables make. -/
theorem wlp_alterTable_stands {x : StateResult Session Unit} {L' : LogicalTable}
    (h : DbInv Storable False db Ms)
    (hx : ∀ state P, db.tables.lookup table = some state →
      TableAt state.rootPage state.indexes (Ms table) db.file P →
      wlp x (fun _ s' => L'.Models s'.state (Ms table).rows ∧ TableStep Storable False
          ⟨state, db.file, db.wal, db.durability, db.maxRowSize⟩ s' P (Ms table) (Ms table))
        ⟨state, db.file, db.wal, db.durability, db.maxRowSize⟩) :
    wlp (Db.alterTable table x) (fun _ db' => Stands table (db', L')) db := by
  refine (wlp_alterTable_of (Q := fun _ state' M' => M' = Ms table ∧
    L'.Models state' (Ms table).rows) h fun state P hname _ hP => (hx state P hname hP).post ?_).post ?_
  · rintro _ s' ⟨hmodels, hstep⟩
    exact ⟨Ms table, ⟨rfl, hmodels⟩, hstep⟩
  · rintro _ db' ⟨state, state', _, hname, ⟨rfl, hmodels⟩, -, htables, hinv⟩
    refine ⟨_, state', hinv, ?_, ?_⟩
    · rw [htables, AList.lookup_replace (Option.isSome_of_eq_some hname)]
    · rw [Function.update_self]
      exact hmodels

/-! ### Rows -/

/-- A transaction of its own, from what it does to the rows of the tables. -/
theorem wlp_inTransaction_of {α : Type} {x : StateResult InTransaction α}
    {Q : α → (String → TableModel) → Prop}
    (hx : wlp x (fun a s' => TxMoves db.beginAcid s' ∧ ∃ Ms', Q a Ms' ∧ TxInv Storable False s' Ms')
      db.beginAcid) :
    wlp (Db.inTransaction x) (fun a db' => ∃ Ms', Q a Ms' ∧ DbInv Storable False db' Ms' ∧
      ∀ name state, db.tables.lookup name = some state →
        ∃ state', db'.tables.lookup name = some state' ∧ SameSchema state state') db := by
  rw [wlp_iff]
  intro a db' hrun
  obtain ⟨s, s', hbody, hcommit, rfl⟩ := inTransaction_eq_ok hrun
  obtain ⟨hmoves, Ms', hQ, hinv⟩ := hx.ok hbody
  obtain ⟨hinv', hdb'⟩ := (wlp_txCommit hinv).ok hcommit
  refine ⟨Ms', hQ, hinv', fun name state hname => ?_⟩
  have hsname : s.db.tables.lookup name = some state := by
    rw [hmoves.db]
    exact hname
  refine ⟨s.tx.seen name state, ?_, hinv.seen_sameSchema hsname⟩
  rw [hdb']
  change s.seenTables.lookup name = _
  rw [s.lookup_seenTables, hsname]
  rfl

/-- The rows of the table have changed as the logical table says. -/
theorem Stands.of_sameSchema {Ms' : String → TableModel} {L' : LogicalTable}
    (hinv : DbInv Storable False db' Ms') (hmodels : L'.Models state (Ms' table).rows)
    (hname : ∃ state', db'.tables.lookup table = some state' ∧ SameSchema state state') :
    Stands table (db', L') := by
  obtain ⟨state', hname', hschema⟩ := hname
  exact ⟨Ms', state', hinv, hname',
    hmodels.sameColumns hschema.columns hschema.colNameToId hschema.colNames hschema.colDefs⟩

/-- A row operation that changes the rows as the logical table says, outside ACID mode
and in a transaction of its own. -/
theorem wlp_row_stands {call : RowCall} {F : Reply → LogicalTable}
    (h : DbInv Storable False db Ms) (hname : db.tables.lookup table = some state)
    (hplace : ∀ P, TableAt state.rootPage state.indexes (Ms table) db.file P →
      wlp (call.inPlace (.watched Storable)) (fun reply s' => ∃ M',
        ((F reply).Models state M'.rows ∧ SameSchema state s'.state) ∧
          TableStep Storable False (db.session state) s' P (Ms table) M') (db.session state))
    (htx : wlp (call.inTransaction (.watched Storable) table) (fun reply s' =>
      TxMoves db.beginAcid s' ∧ ∃ Ms', (F reply).Models state (Ms' table).rows ∧
        TxInv Storable False s' Ms') db.beginAcid) :
    wlp (call.perform (.watched Storable) table) (fun reply db' => Stands table (db', F reply))
      db := by
  unfold RowCall.perform
  refine wlp_get_bind.mpr (wlp_ite (fun _ => ?_) fun _ => ?_)
  · refine (wlp_inTransaction_of (Q := fun reply Ms' => (F reply).Models state (Ms' table).rows)
      htx).post ?_
    rintro reply db' ⟨Ms', hmodels, hinv, hnames⟩
    exact .of_sameSchema hinv hmodels (hnames table state hname)
  · refine (wlp_withTable (Q := fun reply s' M' => (F reply).Models state M'.rows ∧
      SameSchema state s'.state) h fun state' P hname' _ hP => ?_).post ?_
    · rw [hname] at hname'
      obtain rfl := Option.some.inj hname'
      exact hplace P hP
    · rintro reply db' ⟨state', s', M', -, -, ⟨hmodels, hschema⟩, -, hdb', hinv⟩
      refine .of_sameSchema hinv (by rw [Function.update_self]; exact hmodels)
        ⟨s'.state, ?_, hschema⟩
      rw [hdb']
      exact AList.lookup_replace (Option.isSome_of_eq_some hname)

theorem wlp_insert_stands {data : RowData} (h : DbInv Storable False db Ms)
    (hname : db.tables.lookup table = some state) (hmodels : L.Models state (Ms table).rows)
    (hdata : (data.map Prod.fst).Nodup)
    (hsize : (columnData (columnValues state data)).length < 65536) :
    wlp ((RowCall.insert data).perform (.watched Storable) table)
      (fun reply db' => Stands table (db', (ColumnCall.insert data).apply L reply)) db := by
  refine wlp_row_stands (F := fun reply => (ColumnCall.insert data).apply L reply) h hname
    (fun P hP => ?_) ?_
  · refine (wlp_replied (@wlp_insert _ (db.session state) _ P _ data hP fun _ _ => id)).post ?_
    rintro _ s' ⟨id, rfl, -, row, rfl, -, -, -, M', hrows, hstep⟩
    refine ⟨M', ⟨?_, hstep.schema⟩, hstep.tableStep⟩
    rw [hrows]
    exact hmodels.insert id hdata hsize
  · refine (wlp_replied (wlp_txInsert (h.beginAcid) fun _ _ => id)).post ?_
    rintro _ s' ⟨id, rfl, state', Ms', -, hinserted⟩
    obtain rfl : state = state' := Option.some.inj (hname.symm.trans hinserted.named)
    refine ⟨hinserted.moves, Ms', ?_, hinserted.inv⟩
    rw [hinserted.rows]
    exact hmodels.insert id hdata hsize

theorem wlp_update_stands {id : UInt64} {fields : RowData} (h : DbInv Storable False db Ms)
    (hname : db.tables.lookup table = some state) (hmodels : L.Models state (Ms table).rows)
    (hfields : (fields.map Prod.fst).Nodup)
    (hsize : ∀ bytes existing,
      BTreeReader.search db.file state.rootPage id = .ok (some bytes) →
      decodeRow bytes = .ok existing →
      (columnData (collectColumns (existing.columns ++ columnValues state fields))).length < 65536) :
    wlp ((RowCall.update id fields).perform (.watched Storable) table)
      (fun reply db' => Stands table (db', (ColumnCall.update id fields).apply L reply)) db := by
  have habsent : (Ms table).rows id = none → L.update id fields = L := by
    intro hnone
    have hrow := hmodels.rows id
    rw [hnone] at hrow
    cases hvals : L.rows id with
    | none => exact LogicalTable.update_absent hvals fields
    | some vals =>
        rw [hvals] at hrow
        exact hrow.elim
  have hpresent : ∀ old existing, (Ms table).rows id = some old → decodeRow old = .ok existing →
      (L.update id fields).Models state (Function.update (Ms table).rows id (some (encodeRow id
        (collectColumns (existing.columns ++ columnValues state fields))))) := by
    intro old existing hold hdecode
    refine hmodels.update hold hdecode hfields (hsize old existing ?_ hdecode)
    rw [h.search hname, hold]
  refine wlp_row_stands (F := fun reply => (ColumnCall.update id fields).apply L reply) h hname
    (fun P hP => ?_) ?_
  -- outside ACID mode the row is written at once
  · refine (wlp_replied (@wlp_update _ (db.session state) _ P id _ fields hP h.clean
      fun _ _ hstored => hstored)).post ?_
    rintro _ s' ⟨found, rfl, -, hcase⟩
    cases hrow : (Ms table).rows id with
    | none =>
        rw [hrow] at hcase
        subst hcase
        refine ⟨Ms table, ⟨?_, .refl state⟩, TableStep.refl hP h.clean⟩
        change (L.update id fields).Models _ _
        rw [habsent hrow]
        exact hmodels
    | some old =>
        rw [hrow] at hcase
        obtain ⟨existing, row, hdecode, rfl, -, M', hrows, hstep⟩ := hcase
        refine ⟨M', ⟨?_, hstep.schema⟩, hstep.tableStep⟩
        rw [hrows]
        exact hpresent old existing hrow hdecode
  -- in ACID mode the update is a transaction of its own
  · refine (wlp_replied (wlp_txUpdate h.beginAcid fun _ _ hstored => hstored)).post ?_
    rintro _ s' ⟨found, rfl, state', hname', -, hmoves, -, hcase⟩
    obtain rfl : state = state' := Option.some.inj (hname.symm.trans hname')
    refine ⟨hmoves, ?_⟩
    cases hrow : (Ms table).rows id with
    | none =>
        rw [hrow] at hcase
        refine ⟨Ms, ?_, hcase⟩
        change (L.update id fields).Models _ _
        rw [habsent hrow]
        exact hmodels
    | some old =>
        rw [hrow] at hcase
        obtain ⟨existing, row, M', hdecode, rfl, -, hrows, hinv⟩ := hcase
        refine ⟨_, ?_, hinv⟩
        rw [Function.update_self, hrows]
        exact hpresent old existing hrow hdecode

/-! ### Steps -/

/-- **A call that returns** changes the logical table as it says. -/
theorem wlp_columnCall {call : ColumnCall} (h : Stands table (db, L))
    (hname : db.tables.lookup table = some state) (hbound : call.Bounded db state)
    (hlive : call.AddsLive) :
    wlp ((call.call table).perform (.watched Storable))
      (fun reply db' => Stands table (db', call.apply L reply)) db := by
  obtain ⟨Ms, state', hinv, hname', hmodels⟩ := h
  obtain rfl : state' = state := Option.some.inj (hname'.symm.trans hname)
  cases call with
  | addColumn column =>
      refine (wlp_replied (Q := fun _ db' => Stands table (db', L.addColumn column)) ?_).post
        fun reply db' ⟨_, _, hstands⟩ => hstands
      unfold Db.addColumn
      refine wlp_lift_bind fun _ _ => wlp_alterTable_stands hinv fun state P hstate hP => ?_
      obtain rfl := Option.some.inj (hname.symm.trans hstate)
      refine (wlp_addColumn Storable False hP hinv.clean).post ?_
      rintro _ s' ⟨hfree, hs', hstep⟩
      refine ⟨?_, hstep⟩
      rw [hs']
      exact hmodels.addColumn hfree hlive hbound.2
  | renameColumn old new =>
      refine (wlp_replied (Q := fun _ db' => Stands table (db', L.renameColumn old new)) ?_).post
        fun reply db' ⟨_, _, hstands⟩ => hstands
      unfold Db.renameColumn
      refine wlp_lift_bind fun _ _ => wlp_alterTable_stands hinv fun state P hstate hP => ?_
      obtain rfl := Option.some.inj (hname.symm.trans hstate)
      refine (wlp_renameColumn Storable False hP hinv.clean False.elim).post ?_
      rintro _ s' ⟨hold, hfree, hs', hstep⟩
      refine ⟨?_, hstep⟩
      rw [hs']
      exact (hmodels.renameColumn hold hfree).sameColumns rfl rfl rfl rfl
  | dropColumn name =>
      refine (wlp_replied (Q := fun _ db' => Stands table (db', L.dropColumn name)) ?_).post
        fun reply db' ⟨_, _, hstands⟩ => hstands
      refine wlp_alterTable_stands hinv fun state P hstate hP => ?_
      obtain rfl := Option.some.inj (hname.symm.trans hstate)
      refine (wlp_dropColumn Storable False hP hinv.clean).post ?_
      rintro _ s' ⟨hthere, hs', hstep⟩
      refine ⟨?_, hstep⟩
      rw [hs']
      exact hmodels.dropColumn hthere
  | insert data => exact wlp_insert_stands hinv hname hmodels hbound.1 hbound.2
  | update id fields => exact wlp_update_stands hinv hname hmodels hbound.1 hbound.2

/-- A call that is refused leaves the columns and the rows. -/
theorem Stands.refused (h : Stands table (db, L)) (hrefused : db.Refused db') :
    Stands table (db', L) := by
  obtain ⟨Ms, state, hinv, hname, hmodels⟩ := h
  have hinv' := hrefused.inv hinv
  rcases hrefused with rfl | ⟨other, state', s', hname', ⟨next, hle, rfl⟩, rfl⟩
  · exact ⟨Ms, state, hinv, hname, hmodels⟩
  · by_cases hother : table = other
    · subst hother
      obtain rfl := Option.some.inj (hname.symm.trans hname')
      exact ⟨Ms, { state with nextRowid := next }, hinv',
        AList.lookup_replace (Option.isSome_of_eq_some hname),
        hmodels.sameColumns rfl rfl rfl rfl⟩
    · exact ⟨Ms, state, hinv', (AList.lookup_replace_ne hother).trans hname, hmodels⟩

theorem ColumnStep.stands (hstep : ColumnStep table ColumnCall.AddsLive s s')
    (h : Stands table s) : Stands table s' := by
  cases hstep with
  | returned hname hbound hadmits hcall => exact (wlp_columnCall h hname hbound hadmits).ok hcall
  | @refused db L call e hbody hchecks =>
      obtain ⟨Ms, state, hinv, -⟩ := id h
      have hrun := Call.refused_leaves hinv hbody hchecks
      refine h.refused ?_
      unfold stateAfter
      split
      · rename_i hx
        exact (hrun.ok hx).elim
      · rename_i hx
        exact hrun.error hx
  | rolledBack hbody hfail hleft =>
      obtain ⟨Ms, state, hinv, -⟩ := id h
      rw [stateAfter, Call.rolledBack hinv.clean hbody hfail hleft]
      exact h

/-- A column that no name reaches stays out of reach. -/
theorem ColumnStep.retired {admits : ColumnCall → Prop} (hstep : ColumnStep table admits s s')
    {k : ℕ} (h : s.2.Retired k) : s'.2.Retired k := by
  cases hstep with
  | @returned db db' L state call reply hname hbound hadmits hcall =>
      cases call with
      | addColumn column => exact h.addColumn column
      | renameColumn old new => exact h.renameColumn old new
      | dropColumn name => exact h.dropColumn name
      | insert data => cases reply <;> exact h
      | update id fields => exact h
  | refused => exact h
  | rolledBack => exact h

/-- **Schema evolution keeps logical columns.**  In every state of a run that adds no column
as dropped, the maps of the table agree with its columns and every row reads as the logical
table has it; and what no name reaches any more is not reached again. -/
theorem logical_columns_kept {s₀ : Evolving} (hnew : Created table s₀)
    (hrun : Relation.ReflTransGen (ColumnStep table ColumnCall.AddsLive) s₀ s)
    (hrun' : Relation.ReflTransGen (ColumnStep table ColumnCall.AddsLive) s s') :
    ColumnsKept table s' ∧ ∀ k, s.2.Retired k → s'.2.Retired k := by
  have hstands : ∀ {s}, Relation.ReflTransGen (ColumnStep table ColumnCall.AddsLive) s₀ s →
      Stands table s := by
    intro s hrun
    induction hrun with
    | refl => exact hnew.stands
    | tail _ hstep ih => exact hstep.stands ih
  refine ⟨(hstands (hrun.trans hrun')).kept, fun k hk => ?_⟩
  clear hrun hstands
  induction hrun' with
  | refl => exact hk
  | tail _ hstep ih => exact hstep.retired ih

/-- What the engine would owe to columns that are added as dropped as well. -/
def LogicalColumnsKept : Prop :=
  ∀ table s₀ s s', Created table s₀ →
    Relation.ReflTransGen (ColumnStep table fun _ => True) s₀ s →
    Relation.ReflTransGen (ColumnStep table fun _ => True) s s' →
    ColumnsKept table s' ∧ ∀ k, s.2.Retired k → s'.2.Retired k

end

/-! ## A column that is dropped and added again -/

/-- A change of the columns that returns. -/
theorem ColumnStep.of_attempt [Crc32Fast] {admits : ColumnCall → Prop} {table : String} {db : Db}
    {L : LogicalTable} {state : TableMeta} {call : ColumnCall}
    (hname : db.tables.lookup table = some state) (hbound : call.Bounded db state)
    (hadmits : admits call) (hsame : (call.call table).perform (.watched Storable) =
      (call.call table).perform .code)
    (h : (attempt ((call.call table).perform .code) db).toOption.isSome) :
    ∃ reply, ColumnStep table admits (db, L)
      (stateAfter ((call.call table).perform .code) db, call.apply L reply) := by
  obtain ⟨reply, hcall⟩ := exists_of_attempt h
  refine ⟨reply, .returned hname hbound hadmits ?_⟩
  rw [hsame]
  exact hcall

/-- A column of booleans. -/
def flagColumn : ColumnDef := ⟨"flag", .boolean, true, false, none, false⟩

def dropFlag : ColumnCall := .dropColumn "flag"

def addFlag : ColumnCall := .addColumn flagColumn

/-- A row is written, its column is dropped, and a column of the same name is added. -/
theorem logical_columns_kept_flag : letI := crc32Ieee
    ∃ db L, ColumnsKept "t" (db, L) ∧ L.Retired 0 ∧ L.column "flag" = some 1 := by
  let := crc32Ieee
  obtain ⟨reply, hcreate⟩ := createFlags_returns
  obtain ⟨reply₁, hinsert⟩ := insertFlag_returns
  obtain ⟨hcols₁, hcols₂, hattempt₂, hattempt₃, hcols₃⟩ :
      ((stateAfter (createFlags.perform .code) newDb).tables.lookup "t").map (fun state =>
        columnValues state [("flag", .boolean true)]) = some [(0, .boolean true)] ∧
      ((newDb.after [createFlags, insertFlag]).tables.lookup "t").isSome ∧
      (attempt ((dropFlag.call "t").perform .code)
        (newDb.after [createFlags, insertFlag])).toOption.isSome ∧
      (attempt ((addFlag.call "t").perform .code)
        (newDb.after [createFlags, insertFlag, dropFlag.call "t"])).toOption.isSome ∧
      ((newDb.after [createFlags, insertFlag, dropFlag.call "t"]).tables.lookup "t").map
        (fun state => state.columns.length) = some 1 := by
    decide +kernel
  have hafter : newDb.after [createFlags, insertFlag, dropFlag.call "t"] = stateAfter
      ((dropFlag.call "t").perform .code) (newDb.after [createFlags, insertFlag]) := by
    rw [Db.after_cons, Db.after_cons, Db.after_cons, Db.after_cons, Db.after_cons, Db.after_nil,
      Db.after_nil]
  rw [hafter] at hattempt₃ hcols₃
  generalize newDb.after [createFlags, insertFlag] = db₂ at hinsert hcols₂ hattempt₂ hattempt₃ hcols₃
  generalize stateAfter (createFlags.perform .code) newDb = db₁ at hcreate hinsert hcols₁
  set L₀ := LogicalTable.create [flagColumn] with hL₀
  set L₁ := (ColumnCall.insert [("flag", .boolean true)]).apply L₀ reply₁ with hL₁
  have hnew : Created "t" (db₁, L₀) :=
    ⟨newDb, [flagColumn], reply, ⟨newDb, open_new, .refl⟩, by decide, by decide, by decide,
      hcreate, rfl⟩
  have hfirst : ColumnStep "t" ColumnCall.AddsLive (db₁, L₀) (db₂, L₁) := by
    obtain ⟨state, hname, hcols⟩ := Option.map_eq_some_iff.mp hcols₁
    have hbound : (ColumnCall.insert [("flag", .boolean true)]).Bounded db₁ state := by
      refine ⟨by decide, ?_⟩
      rw [hcols]
      decide
    exact .returned hname hbound trivial hinsert
  obtain ⟨state₂, hname₂⟩ := Option.isSome_iff_exists.mp hcols₂
  obtain ⟨reply₂, hsecond⟩ := @ColumnStep.of_attempt _ ColumnCall.AddsLive "t" db₂ L₁ state₂
    dropFlag hname₂ trivial trivial rfl hattempt₂
  generalize stateAfter ((dropFlag.call "t").perform .code) db₂ = db₃ at hsecond hattempt₃ hcols₃
  obtain ⟨state₃, hname₃, hcols₃⟩ := Option.map_eq_some_iff.mp hcols₃
  obtain ⟨reply₃, hthird⟩ := @ColumnStep.of_attempt _ ColumnCall.AddsLive "t" db₃
    (L₁.dropColumn "flag") state₃ addFlag hname₃ ⟨by decide, by omega⟩ rfl rfl hattempt₃
  obtain ⟨hmade, hcolumn⟩ : L₁.made = 1 ∧ L₁.column = L₀.column := by
    rw [hL₁]
    cases reply₁ <;> exact ⟨rfl, rfl⟩
  have hdropped : (L₁.dropColumn "flag").Retired 0 := by
    refine ⟨hmade.symm ▸ Nat.zero_lt_one, fun name hlive => ?_⟩
    change Function.update L₁.column "flag" none name = some 0 at hlive
    by_cases hname : name = "flag"
    · rw [hname, Function.update_self] at hlive
      cases hlive
    · rw [Function.update_of_ne hname, hcolumn] at hlive
      change Function.update (fun _ => none) "flag" (some 0) name = some 0 at hlive
      rw [Function.update_of_ne hname] at hlive
      cases hlive
  obtain ⟨hkept, hretired⟩ := logical_columns_kept hnew (.tail (.single hfirst) hsecond)
    (.single hthird)
  refine ⟨_, _, hkept, hretired 0 hdropped, ?_⟩
  change Function.update (L₁.dropColumn "flag").column "flag" (some L₁.made) "flag" = some 1
  rw [Function.update_self, hmade]

/-- A column that is added as dropped: its name is in the map, but it is not live. -/
theorem not_logical_columns_kept : ¬ @LogicalColumnsKept crc32Ieee := by
  let := crc32Ieee
  intro hkept
  set create : Call := .createTable "t" [] with hcreate
  set add : ColumnCall := .addColumn { flagColumn with dropped := true } with hadd
  obtain ⟨hattempt₁, hcols₁, hattempt₂, hcols₂⟩ :
      (attempt (create.perform .code) newDb).toOption.isSome ∧
      ((stateAfter (create.perform .code) newDb).tables.lookup "t").map
        (fun state => state.columns.length) = some 0 ∧
      (attempt ((add.call "t").perform .code) (stateAfter (create.perform .code) newDb)).toOption.isSome ∧
      ((stateAfter ((add.call "t").perform .code)
        (stateAfter (create.perform .code) newDb)).tables.lookup "t").map
        (fun state => (state.colNameToId "flag", state.columns.all ColumnDef.dropped)) =
          some (some 0, true) := by
    decide +kernel
  obtain ⟨reply, hcall⟩ := exists_of_attempt hattempt₁
  generalize stateAfter (create.perform .code) newDb = db₁ at hattempt₂ hcols₁ hcols₂ hcall
  have hnew : Created "t" (db₁, .create []) :=
    ⟨newDb, [], reply, ⟨newDb, open_new, .refl⟩, by decide, by decide, by decide, hcall, rfl⟩
  obtain ⟨state₁, hname₁, hlen₁⟩ := Option.map_eq_some_iff.mp hcols₁
  obtain ⟨reply', hstep⟩ := @ColumnStep.of_attempt _ (fun _ => True) "t" db₁ (.create []) state₁
    add hname₁ ⟨by decide, by omega⟩ trivial rfl hattempt₂
  obtain ⟨⟨state, hname, hinStep, -⟩, -⟩ := hkept "t" _ _ _ hnew .refl (.single hstep)
  obtain ⟨state', hname', hcols⟩ := Option.map_eq_some_iff.mp hcols₂
  obtain rfl := Option.some.inj (hname.symm.trans hname')
  obtain ⟨hid, hall⟩ := Prod.mk.inj hcols
  obtain ⟨c, hc, -, hlive⟩ := (hinStep.ids "flag" 0).mp hid
  have hdropped := List.all_eq_true.mp hall c (List.mem_of_getElem? hc)
  rw [hlive] at hdropped
  cases hdropped

end BoogyDb
