import BoogyDb.Schema
import Mathlib.Data.List.Induction
import Mathlib.Data.Set.Function

/-!
# The names of the columns

A table keeps its columns in slots, and three things that are derived from them: the
map from the live names to their slots, the names by slot, and the definitions that
rows are read with.  Every change of the schema updates them by hand.
`TableMeta.InStep` says that they agree, and each change keeps it.
-/

namespace BoogyDb

namespace TableMeta

/-- Slot `k` holds a live column called `name`. -/
def LiveAt (t : TableMeta) (name : String) (k : ℕ) : Prop :=
  ∃ c, t.columns[k]? = some c ∧ c.name = name ∧ c.dropped = false

/-- The names of the live columns. -/
def liveColumnNames (t : TableMeta) : Set String := {name | ∃ k, t.LiveAt name k}

/-- The slots of the live columns. -/
def livePositions (t : TableMeta) : Set ℕ := {k | ∃ name, t.LiveAt name k}

/-- The maps of a table agree with its columns. -/
structure InStep (t : TableMeta) : Prop where
  ids : ∀ name i, t.colNameToId name = some i ↔ t.LiveAt name i.toNat
  few : t.columns.length < 65536
  colNames : t.colNames = t.columns.map ColumnDef.name
  colDefs : t.colDefs = t.columns

variable {t : TableMeta} {name : String} {k : ℕ}

theorem LiveAt.lt (h : t.LiveAt name k) : k < t.columns.length := by
  obtain ⟨c, hc, -⟩ := h
  exact (List.getElem?_eq_some_iff.mp hc).1

theorem LiveAt.name_unique {name' : String} (h : t.LiveAt name k) (h' : t.LiveAt name' k) :
    name = name' := by
  obtain ⟨c, hc, hname, -⟩ := h
  obtain ⟨c', hc', hname', -⟩ := h'
  rw [hc] at hc'
  obtain rfl := Option.some.inj hc'
  exact hname.symm.trans hname'

namespace InStep

theorem toNat_ofNat (h : t.InStep) (hk : k < t.columns.length) : (UInt16.ofNat k).toNat = k :=
  UInt16.toNat_ofNat_of_lt' (hk.trans h.few)

theorem colId_eq (h : t.InStep) (hk : t.LiveAt name k) :
    t.colNameToId name = some (UInt16.ofNat k) := by
  apply (h.ids name (UInt16.ofNat k)).mpr
  rw [h.toNat_ofNat hk.lt]
  exact hk

theorem slot_unique (h : t.InStep) {j : ℕ} (hj : t.LiveAt name j) (hk : t.LiveAt name k) :
    j = k := by
  have heq : UInt16.ofNat j = UInt16.ofNat k :=
    Option.some.inj ((h.colId_eq hj).symm.trans (h.colId_eq hk))
  calc
    j = (UInt16.ofNat j).toNat := (h.toNat_ofNat hj.lt).symm
    _ = (UInt16.ofNat k).toNat := by rw [heq]
    _ = k := h.toNat_ofNat hk.lt

/-- A name that the map does not have is no live name. -/
theorem not_liveAt (h : t.InStep) (hnone : t.colNameToId name = none) : ¬ t.LiveAt name k := by
  intro hk
  rw [h.colId_eq hk] at hnone
  cases hnone

/-- **The map is a bijection** from the live names to the slots of the live columns. -/
theorem bijOn (h : t.InStep) : Set.BijOn t.colNameToId t.liveColumnNames
    ((fun k => some (UInt16.ofNat k)) '' t.livePositions) := by
  refine ⟨?_, ?_, ?_⟩
  · rintro name ⟨k, hk⟩
    exact ⟨k, ⟨name, hk⟩, (h.colId_eq hk).symm⟩
  · rintro name ⟨k, hk⟩ name' ⟨k', hk'⟩ heq
    rw [h.colId_eq hk] at heq
    have hat := (h.ids name' _).mp heq.symm
    rw [h.toNat_ofNat hk.lt] at hat
    exact hk.name_unique hat
  · rintro _ ⟨k, ⟨name, hk⟩, rfl⟩
    exact ⟨name, ⟨k, hk⟩, h.colId_eq hk⟩

end InStep

/-! ## Changes of the schema -/

theorem dropColumn_of_some {i : UInt16} {old : String} (hid : t.colNameToId old = some i) :
    t.dropColumn old = { t with
      colNameToId := Function.update t.colNameToId old none
      columns := t.columns.modify i.toNat fun c => { c with dropped := true }
      colDefs := t.columns.modify i.toNat fun c => { c with dropped := true } } := by
  unfold dropColumn
  rw [hid]

theorem dropColumn_of_none {old : String} (hid : t.colNameToId old = none) :
    t.dropColumn old = t := by
  unfold dropColumn
  rw [hid]

theorem renameColumn_of_some {i : UInt16} {old new : String} (hid : t.colNameToId old = some i) :
    t.renameColumn old new = { t with
      colNameToId := Function.update (Function.update t.colNameToId old none) new (some i)
      columns := t.columns.modify i.toNat fun c => { c with name := new }
      colNames := t.colNames.set i.toNat new
      colDefs := t.columns.modify i.toNat fun c => { c with name := new } } := by
  unfold renameColumn
  rw [hid]

theorem renameColumn_of_none {old new : String} (hid : t.colNameToId old = none) :
    t.renameColumn old new = t := by
  unfold renameColumn
  rw [hid]

theorem liveAt_addColumn {col : ColumnDef} : (t.addColumn col).LiveAt name k ↔
    t.LiveAt name k ∨ k = t.columns.length ∧ col.name = name ∧ col.dropped = false := by
  unfold LiveAt
  change (∃ c, (t.columns ++ [col])[k]? = some c ∧ c.name = name ∧ c.dropped = false) ↔ _
  rcases lt_trichotomy k t.columns.length with hlt | rfl | hgt
  · rw [List.getElem?_append_left hlt]
    simp [hlt.ne]
  · simp
  · rw [List.getElem?_eq_none (by simp; omega), List.getElem?_eq_none hgt.le]
    simp [hgt.ne']

theorem liveAt_dropColumn {i : UInt16} {old : String} (hid : t.colNameToId old = some i) :
    (t.dropColumn old).LiveAt name k ↔ t.LiveAt name k ∧ k ≠ i.toNat := by
  rw [dropColumn_of_some hid]
  unfold LiveAt
  by_cases hk : i.toNat = k
  · subst hk
    rw [List.getElem?_modify_eq]
    simp
  · rw [List.getElem?_modify_ne _ _ hk]
    simp [Ne.symm hk]

theorem liveAt_renameColumn {i : UInt16} {old new : String} (hid : t.colNameToId old = some i) :
    (t.renameColumn old new).LiveAt name k ↔
      if k = i.toNat then name = new ∧ ∃ name', t.LiveAt name' k else t.LiveAt name k := by
  rw [renameColumn_of_some hid]
  unfold LiveAt
  by_cases hk : i.toNat = k
  · subst hk
    rw [List.getElem?_modify_eq, if_pos rfl]
    constructor
    · rintro ⟨c, hc, hname, hlive⟩
      obtain ⟨c', hc', rfl⟩ := Option.map_eq_some_iff.mp hc
      exact ⟨hname.symm, c'.name, c', hc', rfl, hlive⟩
    · rintro ⟨rfl, name', c', hc', -, hlive⟩
      exact ⟨_, Option.map_eq_some_iff.mpr ⟨c', hc', rfl⟩, rfl, hlive⟩
  · rw [List.getElem?_modify_ne _ _ hk, if_neg (Ne.symm hk)]

namespace InStep

/-- A live column is appended under a free name. -/
theorem addColumn {col : ColumnDef} (h : t.InStep) (hfree : t.colNameToId col.name = none)
    (hlive : col.dropped = false) (hfew : t.columns.length + 1 < 65536) :
    (t.addColumn col).InStep where
  ids name i := by
    rw [liveAt_addColumn]
    change Function.update t.colNameToId col.name (some (UInt16.ofNat t.columns.length)) name =
      some i ↔ _
    have hlen : (UInt16.ofNat t.columns.length).toNat = t.columns.length :=
      UInt16.toNat_ofNat_of_lt' (Nat.lt_of_succ_lt hfew)
    by_cases hname : name = col.name
    · subst hname
      rw [Function.update_self, Option.some_inj, or_iff_right (h.not_liveAt hfree)]
      constructor
      · rintro rfl
        exact ⟨hlen, rfl, hlive⟩
      · rintro ⟨hi, -⟩
        apply UInt16.toNat_inj.mp
        rw [hlen, hi]
    · rw [Function.update_of_ne hname, h.ids]
      exact (or_iff_left fun hnew => hname hnew.2.1.symm).symm
  few := by
    change (t.columns ++ [col]).length < 65536
    simpa using hfew
  colNames := by
    change t.colNames ++ [col.name] = (t.columns ++ [col]).map ColumnDef.name
    rw [h.colNames, List.map_append]
    rfl
  colDefs := rfl

theorem dropColumn (h : t.InStep) (old : String) : (t.dropColumn old).InStep := by
  cases hid : t.colNameToId old with
  | none =>
      rw [dropColumn_of_none hid]
      exact h
  | some i =>
      have hat : t.LiveAt old i.toNat := (h.ids old i).mp hid
      have hdrop := @liveAt_dropColumn t
      refine ⟨fun name j => ?_, ?_, ?_, ?_⟩
      · rw [hdrop hid]
        rw [dropColumn_of_some hid]
        dsimp only
        by_cases hname : name = old
        · subst hname
          rw [Function.update_self]
          refine iff_of_false (by simp) ?_
          rintro ⟨hj, hne⟩
          exact hne (h.slot_unique hj hat)
        · rw [Function.update_of_ne hname, h.ids]
          refine (and_iff_left_of_imp fun hj heq => hname ?_).symm
          rw [heq] at hj
          exact hj.name_unique hat
      · rw [dropColumn_of_some hid]
        change (t.columns.modify _ _).length < 65536
        rw [List.length_modify]
        exact h.few
      · rw [dropColumn_of_some hid]
        dsimp only
        rw [h.colNames]
        apply List.ext_getElem?
        intro k
        rw [List.getElem?_map, List.getElem?_map]
        by_cases hk : i.toNat = k
        · subst hk
          rw [List.getElem?_modify_eq]
          simp [Function.comp_def]
        · rw [List.getElem?_modify_ne _ _ hk]
      · rw [dropColumn_of_some hid]

/-- A live column gets a free name. -/
theorem renameColumn {new : String} (h : t.InStep) (old : String)
    (hfree : t.colNameToId new = none) : (t.renameColumn old new).InStep := by
  cases hid : t.colNameToId old with
  | none =>
      rw [renameColumn_of_none hid]
      exact h
  | some i =>
      have hat : t.LiveAt old i.toNat := (h.ids old i).mp hid
      have hrename := @liveAt_renameColumn t
      refine ⟨fun name j => ?_, ?_, ?_, ?_⟩
      · rw [hrename hid]
        rw [renameColumn_of_some hid]
        dsimp only
        by_cases hname : name = new
        · subst hname
          rw [Function.update_self, Option.some_inj]
          constructor
          · rintro rfl
            rw [if_pos rfl]
            exact ⟨rfl, old, hat⟩
          · intro hj
            split at hj
            · rename_i heq
              exact (UInt16.toNat_inj.mp heq).symm
            · exact (h.not_liveAt hfree hj).elim
        · rw [Function.update_of_ne hname]
          by_cases hold : name = old
          · subst hold
            rw [Function.update_self]
            refine iff_of_false (by simp) fun hj => ?_
            split at hj
            · exact hname hj.1
            · rename_i hne
              exact hne (h.slot_unique hj hat)
          · rw [Function.update_of_ne hold, h.ids]
            split
            · rename_i heq
              refine iff_of_false (fun hj => hold ?_) fun hj => hname hj.1
              rw [heq] at hj
              exact hj.name_unique hat
            · rfl
      · rw [renameColumn_of_some hid]
        change (t.columns.modify _ _).length < 65536
        rw [List.length_modify]
        exact h.few
      · rw [renameColumn_of_some hid]
        dsimp only
        rw [h.colNames]
        apply List.ext_getElem?
        intro k
        rw [List.getElem?_set, List.getElem?_map, List.getElem?_map, List.length_map]
        by_cases hk : i.toNat = k
        · subst hk
          rw [if_pos rfl, if_pos hat.lt, List.getElem?_modify_eq]
          obtain ⟨c, hc, -⟩ := hat
          rw [hc]
          rfl
        · rw [if_neg hk, List.getElem?_modify_ne _ _ hk]
      · rw [renameColumn_of_some hid]

end InStep

/-! ## New tables -/

theorem liveNames_concat (columns : List ColumnDef) (c : ColumnDef) :
    liveNames (columns ++ [c]) = if c.dropped then liveNames columns
      else Function.update (liveNames columns) c.name (some (UInt16.ofNat columns.length)) := by
  unfold liveNames
  rw [List.zipIdx_append, List.foldl_append]
  simp

theorem new_concat (name : String) (tableId : UInt32) (columns : List ColumnDef) (c : ColumnDef)
    (root : ℕ) (hlive : c.dropped = false) :
    new name tableId (columns ++ [c]) root = (new name tableId columns root).addColumn c := by
  unfold new addColumn
  dsimp only
  rw [liveNames_concat, hlive, List.map_append]
  rfl

/-- The maps of a new table, whose columns have distinct names. -/
theorem InStep.new {tableId : UInt32} {root : ℕ} (columns : List ColumnDef)
    (hnames : (columns.map ColumnDef.name).Nodup) (hfew : columns.length < 65536) :
    (TableMeta.new name tableId columns root).InStep := by
  induction columns using List.reverseRecOn with
  | nil =>
      refine ⟨fun name i => ?_, Nat.zero_lt_succ _, rfl, rfl⟩
      refine iff_of_false (by simp [TableMeta.new, liveNames]) ?_
      rintro ⟨c, hc, -⟩
      simp [TableMeta.new] at hc
  | append_singleton columns c ih =>
      rw [List.map_append, List.nodup_append] at hnames
      rw [List.length_append] at hfew
      have hbefore := ih hnames.1 (Nat.lt_of_succ_lt hfew)
      have hfree : ∀ k, ¬ (TableMeta.new name tableId columns root).LiveAt c.name k := by
        rintro k ⟨c', hc', hname, -⟩
        refine hnames.2.2 c'.name (List.mem_map_of_mem (List.mem_of_getElem? hc')) c.name ?_ hname
        simp
      have hnone : (TableMeta.new name tableId columns root).colNameToId c.name = none := by
        rw [Option.eq_none_iff_forall_ne_some]
        intro i hi
        exact hfree _ ((hbefore.ids _ _).mp hi)
      cases hlive : c.dropped with
      | false =>
          rw [new_concat name tableId columns c root hlive]
          exact hbefore.addColumn hnone hlive hfew
      | true =>
          refine ⟨fun nm i => ?_, ?_, rfl, rfl⟩
          · have hsame := @liveAt_addColumn (TableMeta.new name tableId columns root) nm i.toNat c
            rw [hlive] at hsame
            simp only [Bool.true_eq_false, and_false, or_false] at hsame
            calc
              (TableMeta.new name tableId (columns ++ [c]) root).colNameToId nm = some i ↔
                  (TableMeta.new name tableId columns root).colNameToId nm = some i := by
                change liveNames (columns ++ [c]) nm = some i ↔ liveNames columns nm = some i
                rw [liveNames_concat, hlive, if_pos rfl]
              _ ↔ (TableMeta.new name tableId columns root).LiveAt nm i.toNat := hbefore.ids nm i
              _ ↔ (TableMeta.new name tableId (columns ++ [c]) root).LiveAt nm i.toNat := hsame.symm
          · change (columns ++ [c]).length < 65536
            simpa using hfew

end TableMeta

end BoogyDb
