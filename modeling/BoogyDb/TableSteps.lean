import BoogyDb.RowScan
import BoogyDb.TableRuns
import Mathlib.Data.Finset.Card

/-!
# Row operations as steps of a table

What each row operation does to a table, when it returns: which rows the table has
afterwards, that the indexes have followed them if they agreed before, that the counter of
the rows is right and that the next row id is free (`RowStep`).
-/

namespace BoogyDb

open Bytes Wp WriteGuard FencedTree Ownership BTreeWriter

/-! ## The rows and their number -/

section

variable {rows : UInt64 → Option (List UInt8)} {n : ℕ} {id next : UInt64} {row old : List UInt8}
  {M M' : TableModel} {storable : UInt64 → List UInt8 → Prop}

/-- There are `n` rows. -/
def Counts (rows : UInt64 → Option (List UInt8)) (n : ℕ) : Prop :=
  ∃ ids : Finset UInt64, (∀ id, id ∈ ids ↔ (rows id).isSome) ∧ ids.card = n

theorem Counts.insert (h : Counts rows n) (hid : rows id = none) :
    Counts (Function.update rows id (some row)) (n + 1) := by
  obtain ⟨ids, hmem, rfl⟩ := h
  have hnot : id ∉ ids := by simp [hmem, hid]
  refine ⟨insert id ids, fun k => ?_, Finset.card_insert_of_notMem hnot⟩
  rw [Finset.mem_insert, hmem]
  by_cases hk : k = id
  · subst hk
    simp
  · simp [hk]

theorem Counts.erase (h : Counts rows n) (hid : rows id = some old) :
    Counts (Function.update rows id none) (n - 1) := by
  obtain ⟨ids, hmem, rfl⟩ := h
  have hin : id ∈ ids := by simp [hmem, hid]
  refine ⟨ids.erase id, fun k => ?_, Finset.card_erase_of_mem hin⟩
  rw [Finset.mem_erase, hmem]
  by_cases hk : k = id
  · subst hk
    simp
  · simp [hk]

theorem Counts.replace (h : Counts rows n) (hid : rows id = some old) :
    Counts (Function.update rows id (some row)) n := by
  obtain ⟨ids, hmem, rfl⟩ := h
  refine ⟨ids, fun k => ?_, rfl⟩
  rw [hmem]
  by_cases hk : k = id
  · subst hk
    simp [hid]
  · simp [hk]

/-- The stored rows, their number and the next row id of a table. -/
structure TableInv (storable : UInt64 → List UInt8 → Prop) (M : TableModel) (n : ℕ)
    (next : UInt64) : Prop where
  stored : ∀ id row, M.rows id = some row → storable id row
  counted : Counts M.rows n
  below : ∀ id row, M.rows id = some row → id < next

theorem TableInv.put {next' : UInt64} (h : TableInv storable M n next) (hid : M.rows id = none)
    (hrow : storable id row) (hrows : M'.rows = Function.update M.rows id (some row))
    (hle : next ≤ next') (hlt : id < next') : TableInv storable M' (n + 1) next' := by
  refine ⟨fun k r hk => ?_, ?_, fun k r hk => ?_⟩
  · rw [hrows] at hk
    by_cases hki : k = id
    · subst hki
      rw [Function.update_self] at hk
      rwa [← Option.some.inj hk]
    · rw [Function.update_of_ne hki] at hk
      exact h.stored k r hk
  · rw [hrows]
    exact h.counted.insert hid
  · rw [hrows] at hk
    by_cases hki : k = id
    · rwa [hki]
    · rw [Function.update_of_ne hki] at hk
      exact (h.below k r hk).trans_le hle

theorem TableInv.erase (h : TableInv storable M n next) (hid : M.rows id = some old)
    (hrows : M'.rows = Function.update M.rows id none) : TableInv storable M' (n - 1) next := by
  have hsub : ∀ k r, M'.rows k = some r → M.rows k = some r := by
    intro k r hk
    rw [hrows] at hk
    by_cases hki : k = id
    · subst hki
      rw [Function.update_self] at hk
      cases hk
    · rwa [Function.update_of_ne hki] at hk
  refine ⟨fun k r hk => h.stored k r (hsub k r hk), ?_, fun k r hk => h.below k r (hsub k r hk)⟩
  rw [hrows]
  exact h.counted.erase hid

theorem TableInv.replace (h : TableInv storable M n next) (hid : M.rows id = some old)
    (hrow : storable id row) (hrows : M'.rows = Function.update M.rows id (some row)) :
    TableInv storable M' n next := by
  refine ⟨fun k r hk => ?_, ?_, fun k r hk => ?_⟩
  · rw [hrows] at hk
    by_cases hki : k = id
    · subst hki
      rw [Function.update_self] at hk
      rwa [← Option.some.inj hk]
    · rw [Function.update_of_ne hki] at hk
      exact h.stored k r hk
  · rw [hrows]
    exact h.counted.replace hid
  · rw [hrows] at hk
    by_cases hki : k = id
    · rw [hki]
      exact h.below id old hid
    · rw [Function.update_of_ne hki] at hk
      exact h.below k r hk

theorem TableInv.same (h : TableInv storable M n next) (hrows : M'.rows = M.rows) :
    TableInv storable M' n next := by
  refine ⟨?_, ?_, ?_⟩
  · rw [hrows]
    exact h.stored
  · rw [hrows]
    exact h.counted
  · rw [hrows]
    exact h.below

end

/-! ## Counters -/

section

variable {α : Type} {Q : α → Session → Prop} {s : Session} {n : UInt64}

theorem addOne_eq_ok {m : UInt64} (h : addOne n = .ok m) : m.toNat = n.toNat + 1 := by
  unfold addOne at h
  split at h
  · rw [← Except.ok.inj h]
    rw [UInt64.toNat_add]
    exact Nat.mod_eq_of_lt (by assumption)
  · cases h

theorem subtract_eq_ok {k m : UInt64} (h : subtract n k = .ok m) :
    k.toNat ≤ n.toNat ∧ m.toNat = n.toNat - k.toNat := by
  unfold subtract at h
  split at h
  · rename_i hle
    rw [← Except.ok.inj h]
    exact ⟨UInt64.le_iff_toNat_le.mp hle, UInt64.toNat_sub_of_le _ _ hle⟩
  · cases h

theorem addCount_eq_ok {k : ℕ} {m : UInt64} (h : addCount n k = .ok m) :
    m.toNat = n.toNat + k := by
  unfold addCount at h
  split at h
  · rw [← Except.ok.inj h]
    exact UInt64.toNat_ofNat_of_lt' (by assumption)
  · cases h

theorem lt_of_addOne {m : UInt64} (h : addOne n = .ok m) : n < m := by
  rw [UInt64.lt_iff_toNat_lt, addOne_eq_ok h]
  exact Nat.lt_succ_self _

end

/-! ## Steps -/

section

variable [Crc32Fast]

/-- A row operation that returned: from the model `M` to the model `M'`. -/
structure RowStep (storable : UInt64 → List UInt8 → Prop) (s s' : Session) (P : Set ℕ)
    (M M' : TableModel) : Prop where
  schema : SameSchema s.state s'.state
  clean : s'.file.writeState = ⟨∅, 0⟩
  follows : Follows s.state s'.state M M' M.rows M'.rows
  inv : TableInv storable M s.state.rowCount.toNat s.state.nextRowid →
    TableInv storable M' s'.state.rowCount.toNat s'.state.nextRowid
  next : s.state.nextRowid ≤ s'.state.nextRowid
  turns : Turns (TableAt s'.state.rootPage s'.state.indexes M') s.file P s'.file

variable {s : Session} {M : TableModel} {P : Set ℕ} {id : UInt64} {row : List UInt8}
  {storable : UInt64 → List UInt8 → Prop}

omit [Crc32Fast] in
theorem wlp_countRow : wlp Session.countRow (fun _ s' => ∃ n,
    n.toNat = s.state.rowCount.toNat + 1 ∧ s' = { s with state := { s.state with rowCount := n } }) s := by
  unfold Session.countRow
  refine wlp_get_bind.mpr (wlp_lift_bind fun n hn => ?_)
  exact ⟨n, addOne_eq_ok hn, rfl⟩

/-- A row that is inserted and counted, when the next row id is behind it. -/
theorem wlp_insertRow_countRow {next : UInt64}
    (h : TableAt s.state.rootPage s.state.indexes M s.file P)
    (hstore : ∀ id row, storable id row → Storable id row) (hle : next ≤ s.state.nextRowid)
    (hlt : id < s.state.nextRowid) :
    wlp (Session.insertRow (.watched storable) id row >>= fun _ => Session.countRow) (fun _ s' =>
      SameSchema s.state s'.state ∧ s'.file.writeState = ⟨∅, 0⟩ ∧ storable id row ∧
      M.rows id = none ∧ ∃ M', M'.rows = Function.update M.rows id (some row) ∧
        Follows s.state s'.state M M' M.rows M'.rows ∧
        (TableInv storable M s.state.rowCount.toNat next →
          TableInv storable M' s'.state.rowCount.toNat s'.state.nextRowid) ∧
        s'.state.nextRowid = s.state.nextRowid ∧
          Turns (TableAt s'.state.rootPage s'.state.indexes M') s.file P s'.file) s := by
  refine wp.bind (wlp_insertRow h hstore) ?_
  rintro _ s₁ ⟨hs₁, hclean, hrow, hnew, M', hrows, hfollows, hturn⟩
  refine wlp_countRow.post ?_
  rintro _ s' ⟨n, hn, rfl⟩
  obtain ⟨hname, htable, hcolumns, hids, hnames, hdefs, hindexes⟩ := hs₁.schema
  have hnext : s₁.state.nextRowid = s.state.nextRowid := by rw [hs₁.eq]
  refine ⟨⟨hname, htable, hcolumns, hids, hnames, hdefs, hindexes⟩, hclean, hrow, hnew, M', hrows, ?_,
    fun hinv => ?_, hnext, hturn⟩
  · rw [hrows]
    exact hfollows _ hnew
  · have hcount : s₁.state.rowCount = s.state.rowCount := by rw [hs₁.eq]
    dsimp only
    rw [hn, hcount, hnext]
    exact hinv.put hnew hrow hrows hle hlt

/-- **An insertion** stores the encoded row under the next row id. -/
theorem wlp_insert {data : RowData} (h : TableAt s.state.rootPage s.state.indexes M s.file P)
    (hstore : ∀ id row, storable id row → Storable id row) :
    wlp (Session.insert (.watched storable) data) (fun id s' => id = s.state.nextRowid ∧
      ∃ row, row = encodeRow id (columnValues s.state data) ∧ storable id row ∧ M.rows id = none ∧
        Session.enforceUniqueIndexes s.file s.state row = .ok () ∧
        ∃ M', M'.rows = Function.update M.rows id (some row) ∧ RowStep storable s s' P M M') s := by
  unfold Session.insert
  refine wlp_get_bind.mpr (wlp_lift_bind fun _ _ => wlp_lift_bind fun next hnext => ?_)
  refine wlp_modifyState_bind.mpr (wlp_ite (fun _ => wlp_throw) fun _ => ?_)
  set row := encodeRow s.state.nextRowid (columnValues s.state data) with hrow
  cases hunique : Session.enforceUniqueIndexes s.file s.state row with
  | error e =>
      cases e with
      | error e => trivial
      | panic => trivial
      | overflow => trivial
      | unspecified => trivial
  | ok _ =>
      have hlt : s.state.nextRowid < next := lt_of_addOne hnext
      have hrun := @wlp_insertRow_countRow _ { s with state := { s.state with nextRowid := next } } M P
        s.state.nextRowid row storable s.state.nextRowid h hstore hlt.le hlt
      refine wp.bind (wp_bind.mp hrun) fun _ s₁ h₁ => wp.bind h₁ ?_
      rintro _ s'
        ⟨⟨hname, htable, hcolumns, hids, hnames, hdefs, hindexes⟩, hclean, hstored, hnew, M', hrows,
        hfollows, hinv, hend, hturn⟩
      exact ⟨rfl, row, hrow, hstored, hnew, hunique, M', hrows,
        ⟨hname, htable, hcolumns, hids, hnames, hdefs, hindexes⟩, hclean, hfollows, hinv,
        hlt.le.trans hend.ge, hturn⟩

/-- **An insertion with an id** stores the encoded row under this id. -/
theorem wlp_insertWithId {data : RowData} (h : TableAt s.state.rootPage s.state.indexes M s.file P)
    (hstore : ∀ id row, storable id row → Storable id row) :
    wlp (Session.insertWithId (.watched storable) id data) (fun _ s' =>
      ∃ row, row = encodeRow id (columnValues s.state data) ∧ storable id row ∧ M.rows id = none ∧
        Session.enforceUniqueIndexes s.file s.state row = .ok () ∧
        ∃ M', M'.rows = Function.update M.rows id (some row) ∧ RowStep storable s s' P M M') s := by
  unfold Session.insertWithId
  refine wlp_get_bind.mpr (wlp_lift_bind fun _ _ => wlp_ite (fun _ => wlp_throw) fun _ => ?_)
  set row := encodeRow id (columnValues s.state data) with hrow
  refine wlp_lift_bind fun _ hunique => ?_
  have hrest : ∀ next, s.state.nextRowid ≤ next → id < next →
      wlp (Session.insertRow (.watched storable) id row >>= fun _ => Session.countRow) (fun _ s' =>
        ∃ row, row = encodeRow id (columnValues s.state data) ∧ storable id row ∧ M.rows id = none ∧
          Session.enforceUniqueIndexes s.file s.state row = .ok () ∧
          ∃ M', M'.rows = Function.update M.rows id (some row) ∧ RowStep storable s s' P M M')
        { s with state := { s.state with nextRowid := next } } := by
    intro next hle hlt
    refine (@wlp_insertRow_countRow _ { s with state := { s.state with nextRowid := next } } M P id
      row storable s.state.nextRowid h hstore hle hlt).post ?_
    rintro _ s' ⟨⟨hname, htable, hcolumns, hids, hnames, hdefs, hindexes⟩, hclean, hstored, hnew, M', hrows,
      hfollows, hinv, hend, hturn⟩
    exact ⟨row, hrow, hstored, hnew, hunique, M', hrows,
      ⟨hname, htable, hcolumns, hids, hnames, hdefs, hindexes⟩, hclean, hfollows, hinv,
      hle.trans hend.ge, hturn⟩
  refine wlp_ite (fun hle => wlp_lift_bind fun next hnext => ?_) fun hlt => ?_
  · exact hrest next (hle.trans (lt_of_addOne hnext).le) (lt_of_addOne hnext)
  · exact hrest s.state.nextRowid le_rfl (lt_of_not_ge hlt)

/-- The rows of the file that a search finds. -/
theorem search_tableAt {root : ℕ} {indexes : List IndexMeta}
    (h : TableAt root indexes M s.file P) (hclean : s.file.writeState = ⟨∅, 0⟩) (id : UInt64) :
    BTreeReader.search s.file root id = .ok (M.rows id) := by
  obtain ⟨Q, hQ, -⟩ := h.rowsTree
  exact hQ.holds.search hclean id

/-- **The part of `update` under the guard** replaces a row. -/
theorem wlp_replaceRow {old : List UInt8}
    (h : TableAt s.state.rootPage s.state.indexes M s.file P) (hid : M.rows id = some old)
    (hstore : ∀ id row, storable id row → Storable id row) :
    wlp (Session.replaceRow (.watched storable) id old row) (fun _ s' =>
      storable id row ∧ ∃ M', M'.rows = Function.update M.rows id (some row) ∧
        RowStep storable s s' P M M') s := by
  unfold Session.replaceRow
  refine wp.bind (wlp_indexUpdateRow h) ?_
  rintro _ s₁ ⟨hre₁, M₁, hedit₁, hturn₁⟩
  obtain ⟨P₁, hP₁, hthen₁⟩ := hturn₁.next
  have hroot₁ : s₁.state.rootPage = s.state.rootPage := by rw [hre₁.eq]
  refine wlp_get_bind.mpr (wp.bind (wlp_deleteTree (hroot₁ ▸ hP₁)) ?_)
  rintro found s₂ ⟨hs₂, -, hturn₂⟩
  obtain ⟨P₂, hP₂, hthen₂⟩ := hturn₂.next
  refine wp.bind (wlp_insertTree hP₂ hstore) ?_
  rintro root s₃ ⟨hs₃, hrow, -, hturn₃⟩
  obtain ⟨P₃, hP₃, hthen₃⟩ := hturn₃.next
  refine wlp_modifyState_bind.mpr ?_
  set s₄ : Session := { s₃ with state := { s₃.state with rootPage := root } } with hs₄
  have hstate₄ : s₄.state = { s₁.state with rootPage := root } := by rw [hs₄, hs₃, hs₂]
  rw [Function.update_idem, hedit₁.rows] at hP₃
  have hP₄ : TableAt root s₄.state.indexes
      { M₁ with rows := Function.update M.rows id (some row) } s₄.file P₃ := by
    rw [hstate₄]
    exact hP₃
  refine wp.bind (wlp_indexUpdateRow hP₄) ?_
  rintro _ s₅ ⟨hre₅, M', hedit₅, hturn₅⟩
  obtain ⟨P₅, hP₅, hthen₅⟩ := hturn₅.next
  refine (wlp_commitWrite hP₅).post ?_
  rintro _ s' ⟨hcommit, hturn'⟩
  have hstate' : s'.state = s₅.state := by rw [hcommit.eq]
  have hroot₅ : s₅.state.rootPage = root := by rw [hre₅.eq, hstate₄]
  have hrewritten : Rewritten s₁ s₄ := ⟨by rw [hs₄, hs₃, hs₂], by rw [hstate₄]; rfl⟩
  have hall : Rewritten s s' :=
    ((hre₁.rewritten.trans hrewritten).trans hre₅.rewritten).trans hcommit.rewritten
  have hrows : M'.rows = Function.update M.rows id (some row) := hedit₅.rows
  have hnext : s'.state.nextRowid = s.state.nextRowid := by rw [hall.eq]
  refine ⟨hrow, M', hrows, hall.schema, hcommit.clean, fun hindexed => ?_, fun hinv => ?_, hnext.ge, ?_⟩
  · have hwithout := hre₁.remove hedit₁ hid hindexed
    have hgone : Function.update M.rows id none id = none := Function.update_self ..
    have hwith := hre₅.put hedit₅ hgone (by rw [hstate₄]; exact hwithout)
    rw [Function.update_idem] at hwith
    rw [hstate', hrows]
    exact hwith
  · have hcount : s'.state.rowCount = s.state.rowCount := by rw [hall.eq]
    rw [hcount, hnext]
    exact hinv.replace hid hrow hrows
  · rw [hstate', hroot₅]
    exact hthen₁ _ _ (hthen₂ _ _ (hthen₃ _ _ (hthen₅ _ _ hturn')))

/-- **An update** merges the fields into the row, if it is there. -/
theorem wlp_update {fields : RowData} (h : TableAt s.state.rootPage s.state.indexes M s.file P)
    (hclean : s.file.writeState = ⟨∅, 0⟩) (hstore : ∀ id row, storable id row → Storable id row) :
    wlp (Session.update (.watched storable) id fields) (fun found s' =>
      found = (M.rows id).isSome ∧ match M.rows id with
        | none => s' = s
        | some old => ∃ existing row, decodeRow old = .ok existing ∧
            row = encodeRow id (collectColumns (existing.columns ++ columnValues s.state fields)) ∧
            storable id row ∧ ∃ M', M'.rows = Function.update M.rows id (some row) ∧
              RowStep storable s s' P M M') s := by
  unfold Session.update
  refine wlp_get_bind.mpr (wlp_lift_bind fun _ _ => wlp_lift_bind fun found hfound => ?_)
  rw [search_tableAt h hclean] at hfound
  obtain rfl := Except.ok.inj hfound
  cases hid : M.rows id with
  | none => exact ⟨rfl, rfl⟩
  | some old =>
      refine wlp_lift_bind fun existing hexisting => wp.bind (wlp_replaceRow h hid hstore) ?_
      rintro _ s' ⟨hrow, hstep⟩
      exact ⟨rfl, existing, _, hexisting, rfl, hrow, hstep⟩

/-- The end of `delete`: commit, and count one row less. -/
theorem wlp_deleteCommit {found : Bool} {s₁ : Session} {M₁ : TableModel} {P₁ : Set ℕ}
    (hs₁ : Reindexed s s₁) (h : TableAt s.state.rootPage s₁.state.indexes M₁ s₁.file P₁)
    (hthen : ∀ B : Assertion WriteGuard, ∀ g, Turns B s₁.file P₁ g → Turns B s.file P g)
    (hfound : found = (M.rows id).isSome) (hrows : M₁.rows = Function.update M.rows id none)
    (hfollows : Follows s.state s₁.state M M₁ M.rows M₁.rows) :
    wlp (do
      commitWrite
      if found then do
        let s ← get
        let rowCount ← subtract s.state.rowCount 1
        modifyState fun state => { state with rowCount }
      else pure ()
      pure found) (fun found s' => found = (M.rows id).isSome ∧
        ∃ M', M'.rows = Function.update M.rows id none ∧ RowStep storable s s' P M M') s₁ := by
  refine wp.bind (wlp_commitWrite h) ?_
  rintro _ s₂ ⟨hcommit, hturn⟩
  have hall : Rewritten s s₂ := hs₁.rewritten.trans hcommit.rewritten
  have hcount : s₂.state.rowCount = s.state.rowCount := by rw [hall.eq]
  have hnext : s₂.state.nextRowid = s.state.nextRowid := by rw [hall.eq]
  have hstate : s₂.state = s₁.state := by rw [hcommit.eq]
  have hroot : s₂.state.rootPage = s.state.rootPage := by rw [hstate, hs₁.eq]
  have hfollows' : Follows s.state s₂.state M M₁ M.rows M₁.rows := by
    rw [hstate]
    exact hfollows
  have hturn' : Turns (TableAt s₂.state.rootPage s₂.state.indexes M₁) s.file P s₂.file := by
    rw [hroot, hstate]
    exact hthen _ _ hturn
  refine wlp_ite (fun hyes => ?_) fun hno => ?_
  · rw [hyes] at hfound
    obtain ⟨old, hold⟩ := Option.isSome_iff_exists.mp hfound.symm
    refine wlp_get_bind.mpr (wlp_lift_bind fun n hn => ?_)
    obtain ⟨-, hsub⟩ := subtract_eq_ok hn
    obtain ⟨hname, htable, hcolumns, hids, hnames, hdefs, hindexes⟩ := hall.schema
    refine ⟨hyes.trans hfound, M₁, hrows, ⟨hname, htable, hcolumns, hids, hnames, hdefs, hindexes⟩,
      hcommit.clean,
      hfollows', fun hinv => ?_, hnext.ge, hturn'⟩
    dsimp only
    rw [hsub, hcount, hnext]
    exact hinv.erase hold hrows
  · have hnone : M.rows id = none := by
      rw [← Option.not_isSome_iff_eq_none, ← hfound]
      exact hno
    refine ⟨hfound, M₁, hrows, hall.schema, hcommit.clean, hfollows', fun hinv => ?_, hnext.ge, hturn'⟩
    rw [hcount, hnext]
    refine hinv.same ?_
    rw [hrows, ← hnone, Function.update_eq_self]

/-- The rest of `delete`, after the old bytes were read. -/
theorem wlp_deleteRow {rowBytes : Option (List UInt8)}
    (h : TableAt s.state.rootPage s.state.indexes M s.file P)
    (hbytes : s.state.indexes = [] ∨ rowBytes = M.rows id) :
    wlp (do
      let deleted ← inGuard (BTreeWriter.delete s.state.rootPage id)
      match rowBytes with
      | some bytes =>
        if deleted then Session.indexUpdateRow (.watched storable) id bytes true else pure ()
      | none => pure ()
      commitWrite
      if deleted then do
        let s ← get
        let rowCount ← subtract s.state.rowCount 1
        modifyState fun state => { state with rowCount }
      else pure ()
      pure deleted) (fun found s' => found = (M.rows id).isSome ∧
        ∃ M', M'.rows = Function.update M.rows id none ∧ RowStep storable s s' P M M') s := by
  refine wp.bind (wlp_deleteTree h) ?_
  rintro found s₁ ⟨hs₁, hfound, hturn₁⟩
  obtain ⟨P₁, hP₁, hthen₁⟩ := hturn₁.next
  have hre₁ : Reindexed s s₁ := by
    rw [hs₁]
    exact ⟨rfl, rfl⟩
  have hstate₁ : s₁.state = s.state := by rw [hs₁]
  have hP : TableAt s₁.state.rootPage s₁.state.indexes
      { M with rows := Function.update M.rows id none } s₁.file P₁ := by
    rw [hstate₁]
    exact hP₁
  -- where no key has to go, the indexes stay
  have hsame : (s.state.indexes = [] ∨ M.rows id = none) → Follows s.state s₁.state M
      { M with rows := Function.update M.rows id none } M.rows (Function.update M.rows id none) := by
    rintro (hempty | hnone) hindexed
    · rw [hstate₁]
      intro i idx hi
      rw [hempty] at hi
      cases hi
    · rw [hstate₁, ← hnone, Function.update_eq_self]
      exact hindexed
  cases rowBytes with
  | none =>
      have hnone : s.state.indexes = [] ∨ M.rows id = none := hbytes.imp_right Eq.symm
      exact wlp_deleteCommit hre₁ (hstate₁ ▸ hP) hthen₁ hfound rfl (hsame hnone)
  | some bytes =>
      refine wlp_ite (fun hyes => ?_) fun hno => ?_
      · refine wp.bind (wlp_indexUpdateRow hP) ?_
        rintro _ s₂ ⟨hre₂, M', hedit, hturn₂⟩
        obtain ⟨P₂, hP₂, hthen₂⟩ := hturn₂.next
        rw [hstate₁] at hP₂
        refine wlp_deleteCommit (hre₁.trans hre₂) hP₂ (fun B g hB => hthen₁ _ _ (hthen₂ _ _ hB))
          hfound hedit.rows fun hindexed => ?_
        rw [hedit.rows]
        rcases hbytes with hempty | hbytes
        · intro i idx hi
          obtain ⟨idx', hi', -⟩ := hre₂.shapes.getElem? hi
          rw [hstate₁, hempty] at hi'
          cases hi'
        · refine hre₂.remove hedit hbytes.symm ?_
          rw [hstate₁]
          exact hindexed
      · have hnone : M.rows id = none := by
          rw [← Option.not_isSome_iff_eq_none, ← hfound]
          exact hno
        exact wlp_deleteCommit hre₁ (hstate₁ ▸ hP) hthen₁ hfound rfl (hsame (.inr hnone))

/-- **A deletion** removes the row with this id, if it is there. -/
theorem wlp_delete (h : TableAt s.state.rootPage s.state.indexes M s.file P)
    (hclean : s.file.writeState = ⟨∅, 0⟩) :
    wlp (Session.delete (.watched storable) id) (fun found s' => found = (M.rows id).isSome ∧
      ∃ M', M'.rows = Function.update M.rows id none ∧ RowStep storable s s' P M M') s := by
  unfold Session.delete
  refine wlp_get_bind.mpr (wlp_ite (fun hempty => ?_) fun _ => wlp_lift_bind fun found hfound => ?_)
  · exact wp_bind.mpr (@wlp_deleteRow _ s M P id storable none h
      (.inl (List.isEmpty_iff.mp hempty)))
  · rw [search_tableAt h hclean] at hfound
    exact @wlp_deleteRow _ s M P id storable found h (.inr (Except.ok.inj hfound).symm)

/-! ## Several rows -/

/-- The rows with those of a list, the later ones last. -/
def insertAll (rows : UInt64 → Option (List UInt8)) (entries : List (UInt64 × List UInt8)) :
    UInt64 → Option (List UInt8) :=
  entries.foldl (fun rows e => Function.update rows e.1 (some e.2)) rows

omit [Crc32Fast] in
theorem columnValues_congr {t t' : TableMeta} (h : SameSchema t t') (data : RowData) :
    columnValues t' data = columnValues t data := by
  unfold columnValues TableMeta.colId
  rw [h.colNameToId]

theorem wlp_insertManyLoop {datas : List RowData} {root : ℕ} {next : UInt64} {ids : List UInt64}
    (h : TableAt root s.state.indexes M s.file P)
    (hstore : ∀ id row, storable id row → Storable id row) :
    wlp (Session.insertManyLoop (.watched storable) datas root next ids) (fun res s' =>
      Reindexed s s' ∧ ∃ entries M', res.2.2 = ids ++ entries.map Prod.fst ∧
        List.Forall₂ (fun data e => e.2 = encodeRow e.1 (columnValues s.state data)) datas entries ∧
        M'.rows = insertAll M.rows entries ∧ Follows s.state s'.state M M' M.rows M'.rows ∧
        (∀ n, TableInv storable M n next → TableInv storable M' (n + entries.length) res.2.1) ∧
        next ≤ res.2.1 ∧ Turns (TableAt res.1 s'.state.indexes M') s.file P s'.file) s := by
  induction datas generalizing s M P root next ids with
  | nil =>
      exact ⟨Reindexed.refl s, [], M, (List.append_nil _).symm, .nil, rfl, id, fun n hinv => hinv,
        le_rfl, Turns.refl h⟩
  | cons data datas ih =>
      unfold Session.insertManyLoop
      refine wlp_get_bind.mpr (wlp_lift_bind fun next' hnext => wlp_ite (fun _ => wlp_throw) fun _ => ?_)
      set row := encodeRow next (columnValues s.state data) with hrow
      refine wp.bind (wlp_insertTree h hstore) ?_
      rintro root₁ s₁ ⟨hs₁, hstored, hnew, hturn₁⟩
      obtain ⟨P₁, hP₁, hthen₁⟩ := hturn₁.next
      have hstate₁ : s₁.state = s.state := by rw [hs₁]
      have hre₁ : Reindexed s s₁ := by
        rw [hs₁]
        exact ⟨rfl, rfl⟩
      refine wp.bind (wlp_indexUpdateRow (hstate₁.symm ▸ hP₁)) ?_
      rintro _ s₂ ⟨hre₂, M₂, hedit, hturn₂⟩
      obtain ⟨P₂, hP₂, hthen₂⟩ := hturn₂.next
      have hre : Reindexed s s₂ := hre₁.trans hre₂
      have hrows₂ : M₂.rows = Function.update M.rows next (some row) := hedit.rows
      refine (ih hP₂).post ?_
      rintro ⟨root', last, ids'⟩ s' ⟨hre', entries, M', hids, hdata, hrows, hfollows, hinv, hle, hturn⟩
      refine ⟨hre.trans hre', (next, row) :: entries, M', ?_, .cons hrow ?_, ?_, ?_, fun n hn => ?_,
        (lt_of_addOne hnext).le.trans hle, hthen₁ _ _ (hthen₂ _ _ hturn)⟩
      · rw [hids, List.map_cons, List.append_assoc]
        rfl
      · simpa only [columnValues_congr hre.schema] using hdata
      · rw [hrows, hrows₂]
        rfl
      · refine fun hindexed => hfollows ?_
        rw [hrows₂]
        refine hre₂.put hedit hnew ?_
        rw [hstate₁]
        exact hindexed
      · have hput := hn.put hnew hstored hrows₂ (lt_of_addOne hnext).le (lt_of_addOne hnext)
        have hrest := hinv (n + 1) hput
        rw [Nat.add_right_comm] at hrest
        exact hrest

/-- **An insertion of several rows.** -/
theorem wlp_insertMany {datas : List RowData}
    (h : TableAt s.state.rootPage s.state.indexes M s.file P)
    (hstore : ∀ id row, storable id row → Storable id row) :
    wlp (Session.insertMany (.watched storable) datas) (fun ids s' => ∃ entries M',
      ids = entries.map Prod.fst ∧
      List.Forall₂ (fun data e => e.2 = encodeRow e.1 (columnValues s.state data)) datas entries ∧
      M'.rows = insertAll M.rows entries ∧ RowStep storable s s' P M M') s := by
  unfold Session.insertMany
  refine wlp_get_bind.mpr ?_
  have hchecks : wlp (datas.forM fun data => liftM (Session.enforceIndexTypes s.state data) :
      StateResult Session PUnit)
      (fun _ s' => s' = s) s := by
    refine wlp_forM datas (fun data _ s₁ hs₁ => ?_) rfl
    exact wlp_lift fun _ _ => hs₁
  refine wp.bind hchecks ?_
  rintro _ _ rfl
  refine wp.bind (wlp_insertManyLoop h hstore) ?_
  rintro ⟨root, next, ids⟩ s₁ ⟨hre, entries, M', hids, hdata, hrows, hfollows, hinv, hle, hturn⟩
  obtain ⟨P₁, hP₁, hthen₁⟩ := hturn.next
  refine wp.bind (wlp_commitWrite hP₁) ?_
  rintro _ s₂ ⟨hcommit, hturn₂⟩
  refine wlp_lift_bind fun count hcount => ?_
  refine wlp_modifyState_bind.mpr ?_
  have hlen : ids.length = entries.length := by
    rw [show ids = entries.map Prod.fst from hids, List.length_map]
  have hall : Rewritten _ s₂ := hre.rewritten.trans hcommit.rewritten
  have hstate : s₂.state = s₁.state := by rw [hcommit.eq]
  obtain ⟨hname, htable, hcolumns, hnameIds, hnames, hdefs, hindexes⟩ := hall.schema
  refine ⟨entries, M', hids, hdata, hrows, ⟨hname, htable, hcolumns, hnameIds, hnames, hdefs, hindexes⟩,
    hcommit.clean, ?_, fun hn => ?_, hle, ?_⟩
  · intro hindexed
    have hend := hfollows hindexed
    rw [← hstate] at hend
    exact hend
  · dsimp only
    rw [addCount_eq_ok hcount, hlen]
    exact hinv _ hn
  · dsimp only
    rw [hstate]
    exact hthen₁ _ _ hturn₂

/-! ## Rows that match -/

omit [Crc32Fast] in
theorem visit_forM {call : List UInt8 → Result Unit} (cells : List (List UInt8)) :
    StopLoop.visit (fun (_ : Unit) data => call data >>= fun _ => .ok ((), false)) cells () =
      (cells.forM call >>= fun _ => .ok ((), false)) := by
  induction cells with
  | nil => rfl
  | cons data cells ih =>
      show _ = ((call data >>= fun _ => cells.forM call) >>= _)
      rw [StopLoop.visit]
      cases call data with
      | error e => rfl
      | ok u => exact ih

theorem forRows_forM {call : List UInt8 → Result Unit} {g : WriteGuard} {root : ℕ}
    {leaves : List (Leaf UInt64 StoredRow)} {branches : List ℕ} {l : Leaf UInt64 StoredRow}
    (h : RowTree g root leaves branches) (hl : l ∈ leaves) {next prev : ℕ} :
    forRows (leafPage (rowsOf cellOf l) next prev) (fun _ _ data => call data) () =
      (rowsOf cellOf l).forM call := by
  have hloop : ∀ (cells : List (List UInt8)) (k : ℕ), (∀ data ∈ cells, data ≠ []) →
      (cells.zipIdx k).foldlM (fun (acc : Unit) x => if x.1 = [] then pure acc else call x.1) () =
        cells.forM call := by
    intro cells
    induction cells with
    | nil => intro k _; rfl
    | cons data cells ih =>
        intro k hne
        rw [List.forall_mem_cons] at hne
        rw [List.zipIdx_cons, List.foldlM_cons, if_neg hne.1]
        show (call data >>= _) = (call data >>= fun _ => cells.forM call)
        congr 1
        funext u
        exact ih (k + 1) hne.2
  obtain ⟨pre, post, rfl⟩ := List.append_of_mem hl
  rw [forRows_leafPage h.tree.chained.leafAt.fits]
  refine hloop _ 0 fun data hdata => ?_
  obtain ⟨e, he, rfl⟩ := List.mem_map.mp hdata
  exact h.cells.cell_ne_nil (mem_contents hl he)

/-- The closure was called on the cells of all rows. -/
theorem callOnRows_ok {cycleError : String} {root : ℕ} {g g' : WriteGuard}
    {call : (ℕ → Result Page) → List UInt8 → Result Unit}
    {leaves : List (Leaf UInt64 StoredRow)} {branches : List ℕ}
    (h : RowTree g root leaves branches)
    (hrun : Session.callOnRows cycleError root call g = .ok () g') :
    g' = g ∧ ∀ e ∈ contents leaves, call g.view (cellOf e) = .ok () := by
  obtain ⟨l, rest, page, rfl, hdescend⟩ := h.tree.descend_leftmost
    "B+ tree depth exceeds maximum in find_leftmost_leaf_w"
  have hlen := h.tree.length_le
  have hbehind := @TreeOf.behind _ _ _ _ _ _ _ _ [] rest l branches h.tree
  rw [List.length_cons] at hlen
  have hfirst : findLeftmostLeafW g root = .ok l.page := by
    rw [findLeftmostLeafW, hdescend]
    rfl
  unfold Session.callOnRows readOnly at hrun
  simp only [hfirst, ok_bind, pure_eq_ok] at hrun
  rcases maxPages_cases g with hmax | hmax
  · simp only [hmax, ok_bind] at hrun
    have hwalk := @walkLeaves_visit _ _ _ _ cellOf
      (fun _ data => call g.view data >>= fun _ => .ok ((), false)) (fun _ => false) l rest cycleError
      g.view (fun page _ => do
        forRows page (fun _ _ data => call g.view data) ()
        .ok ((), false)) g.bound 0 () h.tree.chained
      (fun q hq next prev acc => by
        rw [forRows_forM h hq, visit_forM]
        cases (rowsOf cellOf q).forM (call g.view) <;> rfl)
      (fun _ h => absurd h Bool.false_ne_true) hbehind hlen
    rw [hwalk, visit_forM] at hrun
    cases hall : ((contents (l :: rest)).map cellOf).forM (call g.view) with
    | error e =>
        rw [hall] at hrun
        cases hrun
    | ok u =>
        rw [hall] at hrun
        cases hrun
        refine ⟨rfl, fun e he => ?_⟩
        exact Except.forM_eq_ok_iff.mp hall _ (List.mem_map_of_mem he)
  · rw [hmax] at hrun
    cases hrun

section

variable {root : ℕ} {deleted : List (UInt64 × List UInt8)} {R : UInt64 → Option (List UInt8)}

omit [Crc32Fast] in
theorem removeRows_nil : removeRows R [] = R := by
  funext k
  simp [removeRows]

omit [Crc32Fast] in
theorem removeRows_cons (r : UInt64 × List UInt8) :
    removeRows R (r :: deleted) = removeRows (Function.update R r.1 none) deleted := by
  funext k
  unfold removeRows
  rw [List.map_cons]
  by_cases hk : k = r.1
  · simp [hk]
  · rw [Function.update_of_ne hk]
    simp only [List.mem_cons, hk, false_or]

omit [Crc32Fast] in
/-- Without the first of the rows to delete, the others are still there. -/
theorem stays_of_nodup {r : UInt64 × List UInt8} (hnodup : ((r :: deleted).map Prod.fst).Nodup)
    (hmem : ∀ q ∈ r :: deleted, R q.1 = some q.2) :
    ∀ q ∈ deleted, Function.update R r.1 none q.1 = some q.2 := by
  intro q hq
  have hne : q.1 ≠ r.1 := fun heq =>
    (List.nodup_cons.mp hnodup).1 (List.mem_map.mpr ⟨q, hq, heq⟩)
  rw [Function.update_of_ne hne]
  exact hmem q (List.mem_cons_of_mem _ hq)

omit [Crc32Fast] in
theorem TableInv.removeAll {n : ℕ} {next : UInt64} {M M' : TableModel}
    (h : TableInv storable M n next)
    (hnodup : (deleted.map Prod.fst).Nodup) (hmem : ∀ r ∈ deleted, M.rows r.1 = some r.2)
    (hrows : M'.rows = removeRows M.rows deleted) :
    TableInv storable M' (n - deleted.length) next := by
  induction deleted generalizing n M with
  | nil =>
      rw [removeRows_nil] at hrows
      exact h.same hrows
  | cons r deleted ih =>
      have herase : TableInv storable { M with rows := Function.update M.rows r.1 none } (n - 1) next :=
        h.erase (hmem r List.mem_cons_self) rfl
      have hrest := ih herase (List.nodup_cons.mp hnodup).2 (stays_of_nodup hnodup hmem)
        (by rw [hrows, removeRows_cons])
      rw [Nat.sub_sub, Nat.add_comm 1] at hrest
      exact hrest

omit [Crc32Fast] in
theorem Counts.length_le {rows : UInt64 → Option (List UInt8)} {n : ℕ} (h : Counts rows n)
    (hnodup : (deleted.map Prod.fst).Nodup) (hmem : ∀ r ∈ deleted, rows r.1 = some r.2) :
    deleted.length ≤ n := by
  obtain ⟨ids, hids, rfl⟩ := h
  have hsub : (deleted.map Prod.fst).toFinset ⊆ ids := by
    intro id hid
    rw [List.mem_toFinset, List.mem_map] at hid
    obtain ⟨r, hr, rfl⟩ := hid
    rw [hids, hmem r hr]
    rfl
  calc deleted.length = (deleted.map Prod.fst).toFinset.card := by
        rw [List.toFinset_card_of_nodup hnodup, List.length_map]
    _ ≤ ids.card := Finset.card_le_card hsub

/-- The keys of deleted rows are taken out of the indexes. -/
theorem wlp_unindexRows (h : TableAt root s.state.indexes M s.file P) :
    wlp (Session.unindexRows (.watched storable) deleted) (fun _ s' => Reindexed s s' ∧
      ∃ M', M'.rows = M.rows ∧
        (∀ R, (deleted.map Prod.fst).Nodup → (∀ r ∈ deleted, R r.1 = some r.2) →
          Follows s.state s'.state M M' R (removeRows R deleted)) ∧
        Turns (TableAt root s'.state.indexes M') s.file P s'.file) s := by
  induction deleted generalizing s M P with
  | nil =>
      refine ⟨Reindexed.refl s, M, rfl, fun R _ _ => ?_, Turns.refl h⟩
      rw [removeRows_nil]
      exact id
  | cons r deleted ih =>
      unfold Session.unindexRows
      refine wp.bind (wlp_indexUpdateRow h) ?_
      rintro _ s₁ ⟨hre₁, M₁, hedit, hturn₁⟩
      obtain ⟨P₁, hP₁, hthen₁⟩ := hturn₁.next
      refine (ih hP₁).post ?_
      rintro _ s' ⟨hre', M', hrows, hfollows, hturn⟩
      refine ⟨hre₁.trans hre', M', hrows.trans hedit.rows, fun R hnodup hmem hindexed => ?_,
        hthen₁ _ _ hturn⟩
      rw [removeRows_cons]
      exact hfollows _ (List.nodup_cons.mp hnodup).2 (stays_of_nodup hnodup hmem)
        (hre₁.remove hedit (hmem r List.mem_cons_self) hindexed)

omit [Crc32Fast] in
/-- The rows that match are rows of the table, each once. -/
theorem matched_rows {pred : List UInt8 → Bool} {leaves : List (Leaf UInt64 StoredRow)}
    (hrep : Represents (rowsIn leaves) R) (hdeleted : deleted = leaves.flatMap (matchedIn pred)) :
    (deleted.map Prod.fst).Nodup ∧ ∀ r ∈ deleted, R r.1 = some r.2 := by
  have hsub : deleted.Sublist (rowsIn leaves) := by
    rw [hdeleted, rowsIn, contents, List.map_flatMap]
    exact List.Sublist.flatMap_right _ fun l _ => List.filter_sublist.map _
  refine ⟨?_, fun r hr => (hrep.mem_iff r.1 r.2).mp (hsub.subset hr)⟩
  exact List.pairwise_map.mpr ((hrep.increase.sublist hsub).imp fun hlt => hlt.ne)

end

/-- **A deletion by filters** removes the rows whose cells match. -/
theorem wlp_deleteWhere {filters : List Filter}
    (h : TableAt s.state.rootPage s.state.indexes M s.file P) :
    wlp (Session.deleteWhere (.watched storable) filters) (fun n s' => ∃ leaves branches deleted,
      RowTree s.file s.state.rootPage leaves branches ∧ Represents (rowsIn leaves) M.rows ∧
      (∀ e ∈ contents leaves, ∃ b, inlineMatches s.state.colNameToId filters (cellOf e) = .ok b) ∧
      deleted = leaves.flatMap (matchedIn fun data =>
        Session.returned false (inlineMatches s.state.colNameToId filters data)) ∧
      n = deleted.length ∧
      ∃ M', M'.rows = removeRows M.rows deleted ∧ RowStep storable s s' P M M') s := by
  unfold Session.deleteWhere
  refine wlp_get_bind.mpr ?_
  obtain ⟨Q, hQ, hback⟩ := h.rowsTree
  have hcalls : wlp (Session.callOnRows "leaf chain cycle detected in delete_matching"
      s.state.rootPage fun _ data => do
        let _ ← inlineMatches s.state.colNameToId filters data
        pure ()) (fun _ g => g = s.file ∧ ∀ leaves branches,
          RowTree s.file s.state.rootPage leaves branches → ∀ e ∈ contents leaves,
            ∃ b, inlineMatches s.state.colNameToId filters (cellOf e) = .ok b) s.file := by
    refine wlp_iff.mpr fun _ g hrun => ?_
    obtain ⟨leaves, branches, htree, -⟩ := hQ
    refine ⟨(callOnRows_ok htree hrun).1, fun leaves' branches' htree' e he => ?_⟩
    obtain ⟨b, hb, -⟩ := bind_eq_ok.mp ((callOnRows_ok htree' hrun).2 e he)
    exact ⟨b, hb⟩
  refine wp.bind (wlp_inGuard hcalls) ?_
  rintro _ s₀ ⟨hs₀, hfile, hpred⟩
  obtain rfl : s₀ = s := by rw [hs₀, hfile]
  refine wp.bind (wlp_inGuard (wlp_of_wp (wp_deleteMatching_rowsAt hQ))) ?_
  rintro deleted s₁ ⟨hs₁, ⟨leaves, branches, htree, hrep, hdeleted⟩, hturn₁⟩
  -- the rows are gone from the tree before their index entries are removed
  obtain ⟨P₁, hP₁, hthen₁⟩ := (hback _ _ _ hturn₁).next
  have hstate₁ : s₁.state = s₀.state := by rw [hs₁]
  have hre₁ : Reindexed s₀ s₁ := by
    rw [hs₁]
    exact ⟨rfl, rfl⟩
  rw [← hstate₁] at hP₁
  refine wp.bind (wlp_unindexRows hP₁) ?_
  rintro _ s₂ ⟨hre₂, M', hrows, hfollows, hturn₂⟩
  obtain ⟨P₂, hP₂, hthen₂⟩ := hturn₂.next
  refine wp.bind (wlp_commitWrite hP₂) ?_
  rintro _ s₃ ⟨hcommit, hturn₃⟩
  refine wlp_get_bind.mpr (wlp_lift_bind fun n hn => ?_)
  obtain ⟨-, hsub⟩ := subtract_eq_ok hn
  obtain ⟨hnodup, hmem⟩ := matched_rows hrep hdeleted
  have hall : Rewritten s₀ s₃ := ((hre₁.trans hre₂).rewritten).trans hcommit.rewritten
  have hcount : s₃.state.rowCount = s₀.state.rowCount := by rw [hall.eq]
  have hnext : s₃.state.nextRowid = s₀.state.nextRowid := by rw [hall.eq]
  have hstate : s₃.state = s₂.state := by rw [hcommit.eq]
  have hroot : s₃.state.rootPage = s₀.state.rootPage := by rw [hstate, (hre₁.trans hre₂).eq]
  obtain ⟨hname, htable, hcolumns, hids, hnames, hdefs, hindexes⟩ := hall.schema
  refine ⟨leaves, branches, deleted, htree, hrep, hpred leaves branches htree, hdeleted, rfl, M', hrows,
    ⟨hname, htable, hcolumns, hids, hnames, hdefs, hindexes⟩, hcommit.clean, fun hindexed => ?_,
    fun hinv => ?_,
    hnext.ge, ?_⟩
  · have hend := hfollows _ hnodup hmem (by rw [hstate₁]; exact hindexed)
    rw [hrows]
    dsimp only
    rw [hstate]
    exact hend
  · dsimp only
    have hlen : deleted.length < 2 ^ 64 :=
      (hinv.counted.length_le hnodup hmem).trans_lt s₀.state.rowCount.toNat_lt
    rw [hsub, hcount, hnext, UInt64.toNat_ofNat_of_lt' hlen]
    exact hinv.removeAll hnodup hmem hrows
  · dsimp only
    rw [hroot, hstate, ← hstate₁]
    exact hthen₁ _ _ (hthen₂ _ _ hturn₃)

/-! ## Rows that are replaced -/

section

variable {updates : List RowUpdate} {R : UInt64 → Option (List UInt8)}

omit [Crc32Fast] in
theorem applyUpdates_cons {u : RowUpdate} (hnodup : ((u :: updates).map Prod.fst).Nodup) :
    applyUpdates R (u :: updates) = applyUpdates (Function.update R u.1 (some u.2.2)) updates := by
  funext k
  unfold applyUpdates
  rw [List.find?_cons]
  by_cases hk : u.1 = k
  · subst hk
    have hnone : updates.find? (fun v => v.1 == u.1) = none := by
      rw [List.find?_eq_none]
      intro v hv heq
      refine (List.nodup_cons.mp hnodup).1 (List.mem_map.mpr ⟨v, hv, ?_⟩)
      simpa using heq
    rw [hnone]
    simp
  · have hne : (u.1 == k) = false := by simp [hk]
    rw [hne, Function.update_of_ne (Ne.symm hk)]

omit [Crc32Fast] in
theorem applyUpdates_append {left : List RowUpdate}
    (hnodup : ((updates ++ left).map Prod.fst).Nodup) :
    applyUpdates R (updates ++ left) = applyUpdates (applyUpdates R updates) left := by
  induction updates generalizing R with
  | nil => rfl
  | cons u updates ih =>
      have hfirst : ((u :: updates).map Prod.fst).Nodup :=
        hnodup.sublist ((List.sublist_append_left (u :: updates) left).map _)
      rw [List.cons_append] at hnodup ⊢
      rw [applyUpdates_cons hnodup, ih (List.nodup_cons.mp hnodup).2, applyUpdates_cons hfirst]

omit [Crc32Fast] in
/-- After the first of the rows is replaced, the others are what they were. -/
theorem stays_of_nodup' {u : RowUpdate} (hnodup : ((u :: updates).map Prod.fst).Nodup)
    (hmem : ∀ v ∈ u :: updates, R v.1 = some v.2.1) :
    ∀ v ∈ updates, Function.update R u.1 (some u.2.2) v.1 = some v.2.1 := by
  intro v hv
  have hne : v.1 ≠ u.1 := fun heq =>
    (List.nodup_cons.mp hnodup).1 (List.mem_map.mpr ⟨v, hv, heq⟩)
  rw [Function.update_of_ne hne]
  exact hmem v (List.mem_cons_of_mem _ hv)

omit [Crc32Fast] in
theorem TableInv.replaceAll {n : ℕ} {next : UInt64} {M M' : TableModel}
    (h : TableInv storable M n next) (hnodup : (updates.map Prod.fst).Nodup)
    (hmem : ∀ u ∈ updates, M.rows u.1 = some u.2.1) (hrow : ∀ u ∈ updates, storable u.1 u.2.2)
    (hrows : M'.rows = applyUpdates M.rows updates) : TableInv storable M' n next := by
  induction updates generalizing M with
  | nil => exact h.same hrows
  | cons u updates ih =>
      rw [List.forall_mem_cons] at hrow
      have hfirst : TableInv storable { M with rows := Function.update M.rows u.1 (some u.2.2) } n next :=
        h.replace (hmem u List.mem_cons_self) hrow.1 rfl
      exact ih hfirst (List.nodup_cons.mp hnodup).2 (stays_of_nodup' hnodup hmem) hrow.2
        (by rw [hrows, applyUpdates_cons hnodup])

/-- The rows that did not fit on their pages are deleted and inserted again. -/
theorem wlp_reinsertRows (h : TableAt s.state.rootPage s.state.indexes M s.file P)
    (hstore : ∀ id row, storable id row → Storable id row)
    (hnodup : (updates.map Prod.fst).Nodup) :
    wlp (Session.reinsertRows (.watched storable) updates) (fun _ s' =>
      s' = { s with file := s'.file, state := { s.state with rootPage := s'.state.rootPage } } ∧
      Turns (TableAt s'.state.rootPage s'.state.indexes { M with rows := applyUpdates M.rows updates })
        s.file P s'.file) s := by
  induction updates generalizing s M P with
  | nil => exact ⟨rfl, Turns.refl h⟩
  | cons u updates ih =>
      obtain ⟨id, old, new⟩ := u
      unfold Session.reinsertRows
      refine wlp_get_bind.mpr (wp.bind (wlp_deleteTree h) ?_)
      rintro found s₁ ⟨hs₁, -, hturn₁⟩
      obtain ⟨P₁, hP₁, hthen₁⟩ := hturn₁.next
      refine wp.bind (wlp_insertTree hP₁ hstore) ?_
      rintro root s₂ ⟨hs₂, -, -, hturn₂⟩
      obtain ⟨P₂, hP₂, hthen₂⟩ := hturn₂.next
      refine wlp_modifyState_bind.mpr ?_
      rw [Function.update_idem] at hP₂
      have hstate : s₂.state = s.state := by rw [hs₂, hs₁]
      rw [← hstate] at hP₂
      have hrest := @ih { s₂ with state := { s₂.state with rootPage := root } } _ P₂ hP₂
        (List.nodup_cons.mp hnodup).2
      refine hrest.post ?_
      rintro _ s' ⟨hs', hturn⟩
      refine ⟨?_, ?_⟩
      · rw [hs', hs₂, hs₁]
      · rw [applyUpdates_cons hnodup]
        exact hthen₁ _ _ (hthen₂ _ _ hturn)

/-- The keys of replaced rows follow them. -/
theorem wlp_reindexRows {root : ℕ} (h : TableAt root s.state.indexes M s.file P) :
    wlp (Session.reindexRows (.watched storable) updates) (fun _ s' => Reindexed s s' ∧
      ∃ M', M'.rows = M.rows ∧
        (∀ R, (updates.map Prod.fst).Nodup → (∀ u ∈ updates, R u.1 = some u.2.1) →
          Follows s.state s'.state M M' R (applyUpdates R updates)) ∧
        Turns (TableAt root s'.state.indexes M') s.file P s'.file) s := by
  induction updates generalizing s M P with
  | nil => exact ⟨Reindexed.refl s, M, rfl, fun R _ _ => id, Turns.refl h⟩
  | cons u updates ih =>
      obtain ⟨id, old, new⟩ := u
      unfold Session.reindexRows
      refine wp.bind (wlp_indexUpdateRow h) ?_
      rintro _ s₁ ⟨hre₁, M₁, hedit₁, hturn₁⟩
      obtain ⟨P₁, hP₁, hthen₁⟩ := hturn₁.next
      refine wp.bind (wlp_indexUpdateRow hP₁) ?_
      rintro _ s₂ ⟨hre₂, M₂, hedit₂, hturn₂⟩
      obtain ⟨P₂, hP₂, hthen₂⟩ := hturn₂.next
      refine (ih hP₂).post ?_
      rintro _ s' ⟨hre', M', hrows, hfollows, hturn⟩
      refine ⟨(hre₁.trans hre₂).trans hre', M', (hrows.trans hedit₂.rows).trans hedit₁.rows,
        fun R hnodup hmem hindexed => ?_, hthen₁ _ _ (hthen₂ _ _ hturn)⟩
      rw [applyUpdates_cons hnodup]
      have hwithout := hre₁.remove hedit₁ (hmem _ List.mem_cons_self) hindexed
      have hwith := hre₂.put hedit₂ (Function.update_self ..) hwithout
      rw [Function.update_idem] at hwith
      exact hfollows _ (List.nodup_cons.mp hnodup).2 (stays_of_nodup' hnodup hmem) hwith

omit [Crc32Fast] in
/-- The updates done in place and those left to the caller are those of all rows that
match. -/
theorem updates_perm {pred : List UInt8 → Bool} {updater : List UInt8 → List UInt8}
    (leaves : List (Leaf UInt64 StoredRow)) :
    (leaves.flatMap (updatesInPlace pred updater) ++ leaves.flatMap (updatesLeft pred updater)).Perm
      ((leaves.flatMap (matchedIn pred)).map fun r => (r.1, r.2, updater r.2)) := by
  refine (List.flatMap_append_perm leaves _ _).trans (List.Perm.of_eq ?_)
  rw [List.map_flatMap]
  refine List.flatMap_congr fun l _ => ?_
  unfold updatesInPlace updatesLeft updatesIn
  split
  · rw [List.append_nil]
  · rw [List.nil_append]

/-- **An update by filters** patches the rows whose cells match. -/
theorem wlp_updateWhere {filters : List Filter} {fields : RowData}
    (h : TableAt s.state.rootPage s.state.indexes M s.file P)
    (hstore : ∀ id row, storable id row → Storable id row) :
    wlp (Session.updateWhere (.watched storable) filters fields) (fun n s' =>
      ∃ leaves branches updates, RowTree s.file s.state.rootPage leaves branches ∧
      Represents (rowsIn leaves) M.rows ∧
      (∀ e ∈ contents leaves, ∃ b, inlineMatches s.state.colNameToId filters (cellOf e) = .ok b ∧
        (b = true → ∃ new,
          Session.patchFields (columnValues s.state fields) e.2.row = .ok new)) ∧
      updates.Perm ((leaves.flatMap (matchedIn fun data =>
        Session.returned false (inlineMatches s.state.colNameToId filters data))).map fun r =>
          (r.1, r.2, Session.returned [] (Session.patchFields (columnValues s.state fields) r.2))) ∧
      (∀ u ∈ updates, storable u.1 u.2.2) ∧ n = updates.length ∧
      ∃ M', M'.rows = applyUpdates M.rows updates ∧ RowStep storable s s' P M M') s := by
  unfold Session.updateWhere
  refine wlp_get_bind.mpr (wlp_lift_bind fun _ _ => ?_)
  set patches := columnValues s.state fields with hpatches
  obtain ⟨Q, hQ, hback⟩ := h.rowsTree
  -- `inline_matches` and `patch_fields` must not panic on any row; the calls are made ahead of the
  -- pass, which needs their values
  have hcalls : wlp (Session.callOnRows "leaf chain cycle detected in update_matching"
      s.state.rootPage fun read data => do
        if ← inlineMatches s.state.colNameToId filters data then
          let full ← reassembleRow read data
          let _ ← Session.patchFields patches full
          pure ()
        else pure ()) (fun _ g => g = s.file ∧ ∀ leaves branches,
          RowTree s.file s.state.rootPage leaves branches → ∀ e ∈ contents leaves,
            ∃ b, inlineMatches s.state.colNameToId filters (cellOf e) = .ok b ∧
              (b = true → ∃ new, Session.patchFields patches e.2.row = .ok new)) s.file := by
    refine wlp_iff.mpr fun _ g hrun => ?_
    obtain ⟨leaves, branches, htree, -⟩ := hQ
    refine ⟨(callOnRows_ok htree hrun).1, fun leaves' branches' htree' e he => ?_⟩
    obtain ⟨b, hb, hrest⟩ := bind_eq_ok.mp ((callOnRows_ok htree' hrun).2 e he)
    refine ⟨b, hb, fun hyes => ?_⟩
    rw [if_pos hyes, (htree'.kept e he).reassemble, ok_bind] at hrest
    obtain ⟨new, hnew, -⟩ := bind_eq_ok.mp hrest
    exact ⟨new, hnew⟩
  refine wp.bind (wlp_inGuard hcalls) ?_
  rintro _ s₀ ⟨hs₀, hfile, hpred⟩
  obtain rfl : s₀ = s := by rw [hs₀, hfile]
  refine wp.bind (wlp_inGuard (wp_updateRows_watched hQ hstore)) ?_
  rintro ⟨inPlace, left⟩ s₁ ⟨hs₁, ⟨leaves, branches, htree, hrep, hstored, hdone, hleft⟩, hturn₁⟩
  dsimp only at hdone hleft hturn₁ ⊢
  obtain ⟨P₁, hP₁, hthen₁⟩ := (hback _ _ _ hturn₁).next
  have hstate₁ : s₁.state = s₀.state := by rw [hs₁]
  -- the rows updated in place and those left over are together the matched rows
  have hperm := @updates_perm (fun data => Session.returned false
    (inlineMatches s₀.state.colNameToId filters data))
    (fun old => Session.returned [] (Session.patchFields patches old)) leaves
  rw [← hdone, ← hleft] at hperm
  obtain ⟨hnodup', hmem'⟩ := @matched_rows _ _ (fun data => Session.returned false
    (inlineMatches s₀.state.colNameToId filters data)) leaves hrep rfl
  have hnodup : ((inPlace ++ left).map Prod.fst).Nodup := by
    rw [(hperm.map Prod.fst).nodup_iff, List.map_map]
    exact hnodup'
  have hmem : ∀ u ∈ inPlace ++ left, M.rows u.1 = some u.2.1 := by
    intro u hu
    obtain ⟨r, hr, rfl⟩ := List.mem_map.mp (hperm.mem_iff.mp hu)
    exact hmem' r hr
  have hrow : ∀ u ∈ inPlace ++ left, storable u.1 u.2.2 := by
    intro u hu
    obtain ⟨r, hr, rfl⟩ := List.mem_map.mp (hperm.mem_iff.mp hu)
    obtain ⟨e, he, hmatch, rfl⟩ := mem_flatMap_matchedIn.mp hr
    exact hstored e he hmatch
  rw [← hstate₁] at hP₁
  have hleftNodup : (left.map Prod.fst).Nodup :=
    hnodup.sublist ((List.sublist_append_right inPlace left).map _)
  refine wp.bind (wlp_reinsertRows hP₁ hstore hleftNodup) ?_
  rintro _ s₂ ⟨hs₂, hturn₂⟩
  obtain ⟨P₂, hP₂, hthen₂⟩ := hturn₂.next
  dsimp only at hP₂ hthen₂
  -- both halves update different rows, so they can be done in one
  rw [← applyUpdates_append hnodup] at hP₂
  refine wp.bind (wlp_reindexRows hP₂) ?_
  rintro _ s₃ ⟨hre₃, M', hrows, hfollows, hturn₃⟩
  obtain ⟨P₃, hP₃, hthen₃⟩ := hturn₃.next
  refine wp.bind (wlp_commitWrite hP₃) ?_
  rintro _ s' ⟨hcommit, hturn'⟩
  have hstate₂ : s₂.state = { s₀.state with rootPage := s₂.state.rootPage } := by rw [hs₂, hstate₁]
  have hrewritten : Rewritten s₀ s₂ := by
    refine ⟨by rw [hs₂, hs₁], ?_⟩
    rw [hstate₂]
    rfl
  have hall : Rewritten s₀ s' := (hrewritten.trans hre₃.rewritten).trans hcommit.rewritten
  have hcount : s'.state.rowCount = s₀.state.rowCount := by rw [hall.eq]
  have hnext : s'.state.nextRowid = s₀.state.nextRowid := by rw [hall.eq]
  have hstate : s'.state = s₃.state := by rw [hcommit.eq]
  have hroot : s'.state.rootPage = s₂.state.rootPage := by rw [hstate, hre₃.eq]
  refine ⟨leaves, branches, inPlace ++ left, htree, hrep, hpred leaves branches htree, hperm, hrow,
    List.length_append.symm, M', hrows, hall.schema, hcommit.clean, fun hindexed => ?_,
    fun hinv => ?_, hnext.ge, ?_⟩
  · have hend := hfollows M.rows hnodup hmem (by rw [hstate₂]; exact hindexed)
    rw [hstate, hrows]
    exact hend
  · rw [hcount, hnext]
    exact hinv.replaceAll hnodup hmem hrow hrows
  · rw [hroot, hstate]
    exact hthen₁ _ _ (hthen₂ _ _ (hthen₃ _ _ hturn'))

end

end

end BoogyDb
