import BoogyDb.AcidEntries
import BoogyDb.DbSteps
import BoogyDb.TransactionCalls

/-!
# The tables a transaction sees

A transaction sees each table with its own delta applied (`AcidTransaction.seen`), on the
pages of the file with its own pages on top (`AcidTransaction.enter`).  `TxInv` says that
these tables are in these pages, in the same words as for a database between two calls
(`DbOk`).  A commit publishes exactly what the transaction sees, so `TxInv` turns into
`DbInv` there.
-/

namespace BoogyDb

open Bytes Wp WriteGuard FencedTree Ownership

/-! ## Deltas -/

section

variable {table : String} {state : TableMeta} {delta : MetaDelta} {tables : Tables}

/-- The table with what the transaction has changed. -/
def AcidTransaction.seen (tx : AcidTransaction) (table : String) (state : TableMeta) : TableMeta :=
  ((tx.metaDeltas.lookup table).map fun delta => delta.apply state).getD state

/-- The tables with what the transaction has changed. -/
def InTransaction.seenTables (s : InTransaction) : Tables :=
  applyDeltas (s.tx.metaDeltas.entries.map fun e => (e.1, e.2)) s.db.tables

/-- A list of deltas for different tables changes each table by its own delta. -/
theorem lookup_applyDeltas {deltas : List (Sigma fun _ : String => MetaDelta)}
    (h : deltas.NodupKeys) (tables : Tables) (table : String) :
    (applyDeltas (deltas.map fun e => (e.1, e.2)) tables).lookup table =
      (tables.lookup table).map fun state =>
        ((deltas.dlookup table).map fun delta => delta.apply state).getD state := by
  induction deltas generalizing tables with
  | nil => exact (Option.map_id' ..).symm
  | cons d deltas ih =>
      obtain ⟨name, delta⟩ := d
      obtain ⟨hnot, hnodup⟩ := List.nodupKeys_cons.mp h
      have hnone : deltas.dlookup name = none := List.dlookup_eq_none.mpr hnot
      rw [List.map_cons, applyDeltas, List.foldl_cons]
      refine (ih hnodup _).trans ?_
      dsimp only
      by_cases hname : table = name
      · subst hname
        rw [List.dlookup_cons_eq, hnone]
        cases hstate : tables.lookup table with
        | none =>
            dsimp only
            rw [hstate]
            rfl
        | some state =>
            dsimp only
            rw [AList.lookup_replace (Option.isSome_of_eq_some hstate)]
            rfl
      · rw [List.dlookup_cons_ne _ _ hname]
        cases hstate : tables.lookup name with
        | none => rfl
        | some state =>
            dsimp only
            rw [AList.lookup_replace_ne hname]

theorem InTransaction.lookup_seenTables (s : InTransaction) (table : String) :
    s.seenTables.lookup table = (s.db.tables.lookup table).map (s.tx.seen table) :=
  lookup_applyDeltas s.tx.metaDeltas.nodupKeys s.db.tables table

theorem foldl_setIndexRoot_names (roots : List (String × ℕ)) (indexes : List IndexMeta) :
    (roots.foldl setIndexRoot indexes).map IndexMeta.name = indexes.map IndexMeta.name := by
  induction roots generalizing indexes with
  | nil => rfl
  | cons r roots ih =>
      rw [List.foldl_cons, ih]
      unfold setIndexRoot
      cases indexes.findIdx? fun idx => idx.name = r.1 with
      | none => rfl
      | some i =>
          refine List.ext_getElem? fun j => ?_
          rw [List.getElem?_map, List.getElem?_map, List.getElem?_modify]
          cases indexes[j]? with
          | none => rfl
          | some idx =>
              simp only [Option.map_eq_map, Option.map_some]
              split
              · rfl
              · rfl

/-- The delta fits its table: the next row id has not gone back, and it has at most one root
for each index that can be resolved. -/
structure DeltaOk (state : TableMeta) (delta : MetaDelta) : Prop where
  next : state.nextRowid ≤ delta.nextRowid
  nodup : (delta.indexRoots.map Prod.fst).Nodup
  known : ∀ name ∈ delta.indexRoots.map Prod.fst,
    name ∈ (infosOf state state.indexes).map IndexInfo.name

theorem DeltaOk.apply_nextRowid (h : DeltaOk state delta) :
    (delta.apply state).nextRowid = delta.nextRowid := max_eq_right h.next

theorem MetaDelta.apply_indexes (hnames : (state.indexes.map IndexMeta.name).Nodup)
    (h : DeltaOk state delta) :
    (delta.apply state).indexes = withRoots delta.indexRoots state.indexes :=
  foldl_setIndexRoot hnames h.nodup

theorem MetaDelta.apply_sameSchema (hnames : (state.indexes.map IndexMeta.name).Nodup)
    (h : DeltaOk state delta) : SameSchema state (delta.apply state) where
  name := rfl
  tableId := rfl
  columns := rfl
  colNameToId := rfl
  colNames := rfl
  colDefs := rfl
  indexes := by
    rw [MetaDelta.apply_indexes hnames h]
    exact withRoots_shapes

theorem SameSchema.symm {t t' : TableMeta} (h : SameSchema t t') : SameSchema t' t :=
  ⟨h.name.symm, h.tableId.symm, h.columns.symm, h.colNameToId.symm, h.colNames.symm,
    h.colDefs.symm, Eq.symm h.indexes⟩

theorem infosOf_congr {t t' : TableMeta} (h : SameSchema t t') (indexes : List IndexMeta) :
    infosOf t' indexes = infosOf t indexes := by
  unfold infosOf
  exact congrArg (fun f => List.filterMap f indexes)
    (funext fun idx => by rw [resolveColumns_congr h])

/-- New roots for all indexes that can be resolved replace the old ones. -/
theorem withRoots_withRoots {t : TableMeta} {roots roots' : List (String × ℕ)}
    {indexes : List IndexMeta} (hnew : roots'.map Prod.fst = (infosOf t indexes).map IndexInfo.name)
    (hold : ∀ name ∈ roots.map Prod.fst, name ∈ (infosOf t indexes).map IndexInfo.name) :
    withRoots roots' (withRoots roots indexes) = withRoots roots' indexes := by
  unfold withRoots
  rw [List.map_map]
  refine List.map_congr_left fun idx _ => ?_
  show { idx with rootPage := rootFor roots' { idx with rootPage := rootFor roots idx } } = _
  congr 1
  by_cases hin : idx.name ∈ roots'.map Prod.fst
  · obtain ⟨r, hr, hname⟩ := List.mem_map.mp hin
    have hfound : (roots'.find? fun r => r.1 = idx.name).isSome := by
      rw [List.find?_isSome]
      exact ⟨r, hr, decide_eq_true hname⟩
    obtain ⟨r', hr'⟩ := Option.isSome_iff_exists.mp hfound
    unfold rootFor
    rw [hr']
    rfl
  · have hnot : idx.name ∉ roots.map Prod.fst := fun h => hin (hnew ▸ hold _ h)
    rw [rootFor_of_notMem hnot]

theorem infosOf_withRoots_names {t : TableMeta} {roots : List (String × ℕ)}
    {indexes : List IndexMeta} :
    (infosOf t (withRoots roots indexes)).map IndexInfo.name =
      (infosOf t indexes).map IndexInfo.name := by
  unfold infosOf withRoots
  rw [List.filterMap_map, List.map_filterMap, List.map_filterMap]
  refine List.filterMap_congr fun idx _ => ?_
  show ((resolveColumns t idx.columns).map _).map _ = ((resolveColumns t idx.columns).map _).map _
  rw [Option.map_map, Option.map_map]
  rfl

end

/-! ## Counting with deltas -/

theorem MetaDelta.rowCount_add (state : TableMeta) (delta change : Int64) :
    (state.rowCount.toInt64 + (delta + change)).toUInt64 =
      (state.rowCount.toInt64 + delta).toUInt64 + change.toUInt64 := by
  rw [← Int64.add_assoc, Int64.toUInt64_add]

/-! ## The state of a transaction -/

section

theorem InTransaction.guard_leave (s : InTransaction) (guard : WriteGuard) :
    (s.leave guard).guard = guard := by
  have hdirty : (∅ : AList fun _ : ℕ => Page) ∪ guard.writeState.dirty = guard.writeState.dirty :=
    AList.empty_union
  show { guard with writeState := ⟨∅ ∪ guard.writeState.dirty, guard.writeState.newPageCount⟩ } = guard
  rw [hdirty]

theorem guard_beginAcid {db : Db} (hclean : db.file.writeState = ⟨∅, 0⟩) :
    db.beginAcid.guard = db.file := by
  have hempty : (∅ : AList fun _ : ℕ => Page) ∪ ∅ = ∅ := AList.empty_union
  show { db.file with writeState := ⟨db.file.writeState.dirty ∪ ∅, 0⟩ } = db.file
  rw [hclean, hempty, ← hclean]

variable [Crc32Fast] {storable : UInt64 → List UInt8 → Prop} {keyed : Prop} {s s' : InTransaction}
  {Ms : String → TableModel} {tbl : String} {state : TableMeta} {α : Type}

/-- Pages were staged: the database is the same, and the overlay has grown. -/
structure Stages (s s' : InTransaction) : Prop where
  db : s'.db = s.db
  grows : OverlayGrows s.guard s'.guard

omit [Crc32Fast] in
theorem Stages.refl (s : InTransaction) : Stages s s := ⟨rfl, OverlayGrows.refl _⟩

omit [Crc32Fast] in
/-- Only the deltas and the prefixes differ. -/
theorem Stages.congr {s₁ s₂ : InTransaction} (h : Stages s₁ s₂) (hdb : s₁.db = s.db)
    (hguard : s₁.guard = s.guard) (hdb' : s'.db = s₂.db) (hguard' : s'.guard = s₂.guard) :
    Stages s s' := by
  refine ⟨hdb'.trans (h.db.trans hdb), ?_⟩
  rw [hguard', ← hguard]
  exact h.grows

omit [Crc32Fast] in
theorem stages_leave {g : WriteGuard} (hclean : s.db.file.writeState = ⟨∅, 0⟩)
    (hgrows : OverlayGrows s.guard g) : Stages s (s.leave g) := by
  refine ⟨?_, ?_⟩
  · have hfile : g.discard = s.db.file := by
      calc g.discard
          = s.guard.discard := hgrows.discard
        _ = WriteGuard.discard s.db.file := rfl
        _ = s.db.file := by
            unfold WriteGuard.discard
            rw [← hclean]
    show { s.db with file := g.discard } = s.db
    rw [hfile]
  · rw [InTransaction.guard_leave]
    exact hgrows

omit [Crc32Fast] in
theorem wlp_withGuard {f : StateResult WriteGuard α} {R : α → WriteGuard → Prop}
    (hclean : s.db.file.writeState = ⟨∅, 0⟩) (hf : OverlayFrom 0 f) (h : wlp f R s.guard) :
    wlp (InTransaction.withGuard f)
      (fun a s' => ∃ g', s' = s.leave g' ∧ Stages s s' ∧ R a g') s := by
  have hgrows : wlp f (fun _ => OverlayGrows s.guard) s.guard := wlp_of_wp (hf _ (Nat.zero_le _))
  rw [wlp_iff] at h hgrows ⊢
  intro a s' hrun
  unfold InTransaction.withGuard at hrun
  cases hx : f s.guard with
  | error e g' =>
      rw [hx] at hrun
      cases hrun
  | ok _ g' =>
      rw [hx] at hrun
      cases hrun
      exact ⟨g', rfl, stages_leave hclean (hgrows a g' hx), h a g' hx⟩

/-- What holds of a transaction between two of its calls. -/
structure TxInv (storable : UInt64 → List UInt8 → Prop) (keyed : Prop) (s : InTransaction)
    (Ms : String → TableModel) : Prop where
  clean : s.db.file.writeState = ⟨∅, 0⟩
  /-- There is no new page without its contents. -/
  staged : s.tx.privateDirty = ∅ → s.tx.newPageCount = 0
  deltas : ∀ tbl delta, s.tx.metaDeltas.lookup tbl = some delta →
    ∃ state, s.db.tables.lookup tbl = some state ∧ DeltaOk state delta
  ok : ∃ started, DbOk storable keyed started s.seenTables Ms s.guard

theorem TxInv.guard_dirty (h : TxInv storable keyed s Ms) :
    s.guard.writeState.dirty = s.tx.privateDirty := by
  show s.db.file.writeState.dirty ∪ s.tx.privateDirty = s.tx.privateDirty
  rw [h.clean]
  exact AList.empty_union

theorem TxInv.staged_of_stages (h : TxInv storable keyed s Ms) (hstages : Stages s s') :
    s'.tx.privateDirty = ∅ → s'.tx.newPageCount = 0 := by
  intro hempty
  have hdirty' : s'.guard.writeState.dirty = ∅ := by
    show s'.db.file.writeState.dirty ∪ s'.tx.privateDirty = ∅
    rw [hstages.db, h.clean, hempty]
    exact AList.empty_union
  have hnone : ∀ p, p ∉ s'.guard.writeState.dirty := by
    intro p
    rw [hdirty']
    exact AList.notMem_empty p
  have hold : s.tx.privateDirty = ∅ := by
    rw [← h.guard_dirty]
    refine AList.ext (List.eq_nil_iff_forall_not_mem.mpr fun e he => ?_)
    exact hnone e.1 (hstages.grows.kept e.1 (AList.mem_keys.mpr (List.mem_keys_of_mem he)))
  have hcount := h.staged hold
  by_contra hpos
  have hbound : s.guard.bound = s'.db.file.pageCount := by
    show s.db.file.pageCount + s.tx.newPageCount = _
    rw [hcount, hstages.db]
    rfl
  refine hnone s.guard.bound (hstages.grows.allocated _ le_rfl ?_)
  rw [hbound]
  exact Nat.lt_add_of_pos_right (Nat.pos_of_ne_zero hpos)

/-- The tables are known by what a lookup finds. -/
theorem DbOk.congr {started : Bool} {tables tables' : Tables} {g : WriteGuard}
    (h : DbOk storable keyed started tables Ms g)
    (heq : ∀ name, tables'.lookup name = tables.lookup name) :
    DbOk storable keyed started tables' Ms g := by
  have howners : owners started tables' Ms = owners started tables Ms := by
    funext i
    cases i with
    | none => rfl
    | some name => rw [owners, owners, heq]
  refine ⟨howners ▸ h.owned, fun name state hname => h.each name state (heq name ▸ hname), ?_⟩
  exact fun hfalse => ⟨fun name => (heq name).trans ((h.fresh hfalse).1 name), (h.fresh hfalse).2⟩

theorem DbInv.beginAcid {db : Db} (h : DbInv storable keyed db Ms) :
    TxInv storable keyed db.beginAcid Ms := by
  obtain ⟨started, hok⟩ := h.ok
  refine ⟨h.clean, fun _ => rfl, (fun tbl delta hdelta => by cases hdelta), started, ?_⟩
  rw [guard_beginAcid h.clean]
  exact hok

theorem TxInv.delta_cases (h : TxInv storable keyed s Ms)
    (hname : s.db.tables.lookup tbl = some state) :
    s.tx.metaDeltas.lookup tbl = none ∨
      ∃ delta, s.tx.metaDeltas.lookup tbl = some delta ∧ DeltaOk state delta := by
  cases hdelta : s.tx.metaDeltas.lookup tbl with
  | none => exact .inl rfl
  | some delta =>
      obtain ⟨state', hname', hok⟩ := h.deltas tbl delta hdelta
      rw [hname] at hname'
      obtain rfl := Option.some.inj hname'
      exact .inr ⟨delta, rfl, hok⟩

/-- **A table of the transaction at work.** -/
theorem TxInv.table (h : TxInv storable keyed s Ms)
    (hname : s.db.tables.lookup tbl = some state) :
    TableOk storable keyed (s.tx.seen tbl state) (Ms tbl) ∧
    ∃ P, TableAt (s.tx.seen tbl state).rootPage (s.tx.seen tbl state).indexes (Ms tbl)
        s.guard P ∧
      ∀ state' M' s', TableOk storable keyed state' M' →
        Turns (TableAt state'.rootPage state'.indexes M') s.guard P s'.guard → Stages s s' →
        (∀ name delta, s'.tx.metaDeltas.lookup name = some delta →
          ∃ state, s'.db.tables.lookup name = some state ∧ DeltaOk state delta) →
        s'.seenTables.lookup tbl = some state' →
        (∀ name, name ≠ tbl → s'.seenTables.lookup name = s.seenTables.lookup name) →
        TxInv storable keyed s' (Function.update Ms tbl M') := by
  obtain ⟨started, hok⟩ := h.ok
  have hseen : s.seenTables.lookup tbl = some (s.tx.seen tbl state) := by
    rw [s.lookup_seenTables, hname]
    rfl
  obtain ⟨htable, P, hP, hback⟩ := hok.table hseen
  refine ⟨htable, P, hP, fun state' M' s' htable' hturn hstages hdeltas hself hothers => ?_⟩
  refine ⟨hstages.db ▸ h.clean, h.staged_of_stages hstages, hdeltas, started,
    (hback state' M' _ htable' hturn).congr fun name => ?_⟩
  by_cases heq : name = tbl
  · rw [heq, hself, AList.lookup_replace (Option.isSome_of_eq_some hseen)]
  · rw [hothers name heq, AList.lookup_replace_ne heq]

/-- The committed names are those that the transaction sees. -/
theorem TxInv.names (h : TxInv storable keyed s Ms)
    (hname : s.db.tables.lookup tbl = some state) :
    (state.indexes.map IndexMeta.name).Nodup := by
  have hnames := h.table hname |>.1.names
  unfold AcidTransaction.seen at hnames
  cases hdelta : s.tx.metaDeltas.lookup tbl with
  | none =>
      rw [hdelta] at hnames
      exact hnames
  | some delta =>
      rw [hdelta] at hnames
      change ((delta.indexRoots.foldl setIndexRoot state.indexes).map IndexMeta.name).Nodup at hnames
      rwa [foldl_setIndexRoot_names] at hnames

/-! ## What a call reads of the deltas -/

omit [Crc32Fast] in
theorem currentRoot_eq (tx : AcidTransaction) (tbl : String) (state : TableMeta) :
    tx.currentRoot tbl state = (tx.seen tbl state).rootPage := by
  unfold AcidTransaction.currentRoot AcidTransaction.seen
  cases tx.metaDeltas.lookup tbl with
  | none => rfl
  | some delta => rfl

theorem TxInv.currentNextRowid_eq (h : TxInv storable keyed s Ms)
    (hname : s.db.tables.lookup tbl = some state) :
    s.tx.currentNextRowid tbl state = (s.tx.seen tbl state).nextRowid := by
  unfold AcidTransaction.currentNextRowid AcidTransaction.seen
  rcases h.delta_cases hname with hnone | ⟨delta, hdelta, hok⟩
  · rw [hnone]
    rfl
  · rw [hdelta]
    exact hok.apply_nextRowid.symm

theorem TxInv.seen_sameSchema (h : TxInv storable keyed s Ms)
    (hname : s.db.tables.lookup tbl = some state) :
    SameSchema state (s.tx.seen tbl state) := by
  unfold AcidTransaction.seen
  rcases h.delta_cases hname with hnone | ⟨delta, hdelta, hok⟩
  · rw [hnone]
    exact SameSchema.refl state
  · rw [hdelta]
    exact MetaDelta.apply_sameSchema (h.names hname) hok

theorem TxInv.compositeIndexInfo_eq (h : TxInv storable keyed s Ms)
    (hname : s.db.tables.lookup tbl = some state) :
    s.tx.compositeIndexInfo tbl state =
      infosOf (s.tx.seen tbl state) (s.tx.seen tbl state).indexes := by
  rw [infosOf_congr (h.seen_sameSchema hname)]
  unfold AcidTransaction.compositeIndexInfo AcidTransaction.seen infosOf
  rcases h.delta_cases hname with hnone | ⟨delta, hdelta, hok⟩
  · rw [hnone]
    refine List.filterMap_congr fun idx _ => ?_
    unfold AcidTransaction.currentIndexRoot
    rw [hnone]
  · rw [hdelta]
    dsimp only [Option.map_some, Option.getD_some]
    rw [MetaDelta.apply_indexes (h.names hname) hok]
    unfold withRoots
    rw [List.filterMap_map]
    refine List.filterMap_congr fun idx _ => ?_
    unfold AcidTransaction.currentIndexRoot
    rw [hdelta]
    rfl

/-! ## A delta that is replaced -/

omit [Crc32Fast] in
theorem infosOf_names_sublist (t : TableMeta) (indexes : List IndexMeta) :
    ((infosOf t indexes).map IndexInfo.name).Sublist (indexes.map IndexMeta.name) := by
  induction indexes with
  | nil => exact .slnil
  | cons idx indexes ih =>
      unfold infosOf at ih ⊢
      rw [List.filterMap_cons]
      cases resolveColumns t idx.columns with
      | none => exact ih.cons _
      | some cols => exact ih.cons_cons _

/-- New roots for the indexes of a table. -/
theorem TxInv.newDelta (h : TxInv storable keyed s Ms)
    (hname : s.db.tables.lookup tbl = some state) {delta : MetaDelta}
    (hnext : (s.tx.seen tbl state).nextRowid ≤ delta.nextRowid)
    (hroots : delta.indexRoots.map Prod.fst =
      (infosOf (s.tx.seen tbl state) (s.tx.seen tbl state).indexes).map IndexInfo.name) :
    DeltaOk state delta ∧
      (delta.apply state).indexes = withRoots delta.indexRoots (s.tx.seen tbl state).indexes ∧
      SameSchema (s.tx.seen tbl state) (delta.apply state) := by
  have hnames := h.names hname
  have hschema := h.seen_sameSchema hname
  rw [infosOf_congr hschema] at hroots
  have hsame : (infosOf state (s.tx.seen tbl state).indexes).map IndexInfo.name =
      (infosOf state state.indexes).map IndexInfo.name := by
    unfold AcidTransaction.seen
    rcases h.delta_cases hname with hnone | ⟨old, hold, hok⟩
    · rw [hnone]
      rfl
    · rw [hold]
      dsimp only [Option.map_some, Option.getD_some]
      rw [MetaDelta.apply_indexes hnames hok]
      exact infosOf_withRoots_names
  have hle : state.nextRowid ≤ (s.tx.seen tbl state).nextRowid := by
    unfold AcidTransaction.seen
    rcases h.delta_cases hname with hnone | ⟨old, hold, hok⟩
    · rw [hnone]
      exact le_rfl
    · rw [hold]
      exact le_max_left ..
  have hok : DeltaOk state delta := by
    refine ⟨hle.trans hnext, ?_, fun name hin => ?_⟩
    · rw [hroots, hsame]
      exact hnames.sublist (infosOf_names_sublist state _)
    · rw [← hsame, ← hroots]
      exact hin
  refine ⟨hok, ?_, hschema.symm.trans (MetaDelta.apply_sameSchema hnames hok)⟩
  rw [MetaDelta.apply_indexes hnames hok]
  unfold AcidTransaction.seen
  rcases h.delta_cases hname with hnone | ⟨old, hold, hold'⟩
  · rw [hnone]
    rfl
  · rw [hold]
    dsimp only [Option.map_some, Option.getD_some]
    rw [MetaDelta.apply_indexes hnames hold',
      withRoots_withRoots (hroots.trans hsame) hold'.known]

/-! ## What a call does to the deltas -/

/-- The database is the same, and no next row id that the transaction sees has gone back. -/
structure TxMoves (s s' : InTransaction) : Prop where
  db : s'.db = s.db
  next : ∀ name state, s.db.tables.lookup name = some state →
    (s.tx.seen name state).nextRowid ≤ (s'.tx.seen name state).nextRowid

omit [Crc32Fast] in
theorem TxMoves.refl (s : InTransaction) : TxMoves s s := ⟨rfl, fun _ _ _ => le_rfl⟩

omit [Crc32Fast] in
theorem TxMoves.trans {s₁ s₂ s₃ : InTransaction} (h : TxMoves s₁ s₂) (h' : TxMoves s₂ s₃) :
    TxMoves s₁ s₃ where
  db := h'.db.trans h.db
  next name state hname := (h.next name state hname).trans (h'.next name state (by rw [h.db, hname]))

omit [Crc32Fast] in
theorem TxMoves.same (hdb : s'.db = s.db) (hdeltas : s'.tx.metaDeltas = s.tx.metaDeltas) :
    TxMoves s s' where
  db := hdb
  next name state _ := by
    unfold AcidTransaction.seen
    rw [hdeltas]

omit [Crc32Fast] in
theorem TxMoves.delta {delta : MetaDelta} (hname : s.db.tables.lookup tbl = some state)
    (hdb : s'.db = s.db) (hdeltas : s'.tx.metaDeltas = s.tx.metaDeltas.insert tbl delta)
    (hle : (s.tx.seen tbl state).nextRowid ≤ delta.nextRowid) : TxMoves s s' where
  db := hdb
  next name state' hname' := by
    by_cases hne : name = tbl
    · subst hne
      rw [hname] at hname'
      obtain rfl := Option.some.inj hname'
      refine hle.trans ?_
      rw [AcidTransaction.seen, hdeltas, AList.lookup_insert]
      exact le_max_right ..
    · unfold AcidTransaction.seen
      rw [hdeltas, AList.lookup_insert_ne hne]

/-- **A step of one table** leaves the delta and what the table holds, or changes the delta. -/
theorem TxInv.work (h : TxInv storable keyed s Ms) (hname : s.db.tables.lookup tbl = some state) :
    ∃ P, TableAt (s.tx.seen tbl state).rootPage (s.tx.seen tbl state).indexes (Ms tbl) s.guard P ∧
      (∀ s', Turns (TableAt (s.tx.seen tbl state).rootPage (s.tx.seen tbl state).indexes (Ms tbl))
          s.guard P s'.guard →
        Stages s s' → s'.tx.metaDeltas = s.tx.metaDeltas → TxInv storable keyed s' Ms) ∧
      ∀ delta M' s', DeltaOk state delta → TableOk storable keyed (delta.apply state) M' →
        Turns (TableAt (delta.apply state).rootPage (delta.apply state).indexes M') s.guard P
          s'.guard →
        Stages s s' → s'.tx.metaDeltas = s.tx.metaDeltas.insert tbl delta →
        TxInv storable keyed s' (Function.update Ms tbl M') := by
  obtain ⟨htable, P, hP, hback⟩ := h.table hname
  refine ⟨P, hP, fun s' hturn hstages hdeltas => ?_,
    fun delta M' s' hok htable' hturn hstages hdeltas => ?_⟩
  · have hseen : ∀ name, s'.seenTables.lookup name = s.seenTables.lookup name := by
      intro name
      rw [s'.lookup_seenTables, s.lookup_seenTables, hstages.db]
      unfold AcidTransaction.seen
      rw [hdeltas]
    have hself : s.seenTables.lookup tbl = some (s.tx.seen tbl state) := by
      rw [s.lookup_seenTables, hname]
      rfl
    have hinv := hback _ _ s' htable hturn hstages (fun name d hd => ?_) ((hseen tbl).trans hself)
      fun name _ => hseen name
    · rwa [Function.update_eq_self] at hinv
    · rw [hstages.db]
      rw [hdeltas] at hd
      exact h.deltas name d hd
  · refine hback _ M' s' htable' hturn hstages (fun name d hd => ?_) ?_ fun name hne => ?_
    · rw [hstages.db]
      by_cases heq : name = tbl
      · subst heq
        rw [hdeltas, AList.lookup_insert] at hd
        exact ⟨state, hname, Option.some.inj hd ▸ hok⟩
      · rw [hdeltas, AList.lookup_insert_ne heq] at hd
        exact h.deltas name d hd
    · rw [s'.lookup_seenTables, hstages.db, hname]
      show some (s'.tx.seen tbl state) = _
      unfold AcidTransaction.seen
      rw [hdeltas, AList.lookup_insert]
      rfl
    · rw [s'.lookup_seenTables, s.lookup_seenTables, hstages.db]
      congr 1
      funext st
      unfold AcidTransaction.seen
      rw [hdeltas, AList.lookup_insert_ne hne]

end

end BoogyDb
