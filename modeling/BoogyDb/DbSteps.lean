import BoogyDb.DbOwners

/-!
# Calls as steps of a database

`DbInv` holds between the calls: nothing is in the overlay, and the tables are in the file
(`DbOk`).  Every call outside ACID mode keeps it when it returns; the row operations and
the schema operations by what they do to their table, the others by what they do to the
registry.
-/

namespace BoogyDb

open Bytes Wp WriteGuard FencedTree Ownership

section

variable [Crc32Fast] {α : Type} {db : Db} {Ms : String → TableModel} {started : Bool}
  {storable : UInt64 → List UInt8 → Prop} {keyed : Prop} {table : String} {g g' : WriteGuard}

/-- What holds of a database between two calls. -/
structure DbInv (storable : UInt64 → List UInt8 → Prop) (keyed : Prop) (db : Db)
    (Ms : String → TableModel) : Prop where
  clean : db.file.writeState = ⟨∅, 0⟩
  ok : ∃ started, DbOk storable keyed started db.tables Ms db.file

/-- A call has returned: the tables are sound, and no next row id has gone back. -/
structure DbMoves (storable : UInt64 → List UInt8 → Prop) (keyed : Prop) (db db' : Db) :
    Prop where
  inv : ∃ Ms', DbInv storable keyed db' Ms'
  next : ∀ name state state', db.tables.lookup name = some state →
    db'.tables.lookup name = some state' → state.nextRowid ≤ state'.nextRowid

theorem DbMoves.same {db' : Db} {Ms' : String → TableModel} (h : DbInv storable keyed db' Ms')
    (htables : db'.tables = db.tables) : DbMoves storable keyed db db' := by
  refine ⟨⟨Ms', h⟩, fun name state state' hname hname' => ?_⟩
  rw [htables, hname] at hname'
  rw [Option.some.inj hname']

/-- One table has changed. -/
theorem DbMoves.oneTable {db' : Db} {Ms' : String → TableModel} {state state₁ : TableMeta}
    (h : DbInv storable keyed db' Ms') (hname : db.tables.lookup table = some state)
    (htables : db'.tables = db.tables.replace table state₁)
    (hle : state.nextRowid ≤ state₁.nextRowid) : DbMoves storable keyed db db' := by
  refine ⟨⟨Ms', h⟩, fun name st st' hst hst' => ?_⟩
  rw [htables] at hst'
  by_cases heq : name = table
  · subst heq
    rw [AList.lookup_replace (Option.isSome_of_eq_some hname)] at hst'
    rw [hname] at hst
    rw [← Option.some.inj hst, ← Option.some.inj hst']
    exact hle
  · rw [AList.lookup_replace_ne heq, hst] at hst'
    rw [Option.some.inj hst']

/-! ## The registry -/

theorem wlp_allocateAll {β : Type} (chunks : List β) :
    wlp (chunks.mapM fun _ => allocatePage)
      (fun pages g' => Touches g g' [] ∧ ∀ p ∈ pages, g.bound ≤ p) g := by
  induction chunks generalizing g with
  | nil => exact ⟨Touches.refl g [], by simp⟩
  | cons chunk chunks ih =>
      rw [List.mapM_cons]
      refine wp.bind (wp_allocatePage (E := fun _ _ => True)
        (Q := fun p g₁ => p = g.bound ∧ Touches g g₁ []) (fun g₁ halloc => ⟨rfl, .allocate halloc⟩)
        fun _ _ _ => trivial) ?_
      rintro p g₁ ⟨rfl, ht⟩
      refine wp.bind ih ?_
      rintro pages g₂ ⟨ht', hpages⟩
      refine ⟨ht.trans ht', fun p hp => ?_⟩
      rcases List.mem_cons.mp hp with rfl | hp
      · exact le_rfl
      · exact ht.bound_le.trans (hpages p hp)

theorem linkChunks_pages {numbers : List ℕ} {chunks : List (List UInt8)} {pages : List (ℕ × Page)}
    (h : linkChunks numbers chunks = .ok pages) : ∀ p ∈ pages, p.1 ∈ numbers := by
  induction numbers generalizing chunks pages with
  | nil =>
      cases h
      simp
  | cons n numbers ih =>
      cases chunks with
      | nil =>
          cases h
          simp
      | cons chunk chunks =>
          rw [linkChunks] at h
          obtain ⟨page, -, h⟩ := bind_eq_ok.mp h
          obtain ⟨rest, hrest, h⟩ := bind_eq_ok.mp h
          cases h
          intro p hp
          rcases List.mem_cons.mp hp with rfl | hp
          · exact List.mem_cons_self
          · exact List.mem_cons_of_mem _ (ih hrest p hp)

/-- The overflow pages of the registry are new. -/
theorem wlp_serializeSystemPage {metas : List TableRecord} {nextTableId : UInt32} :
    wlp (serializeSystemPage metas nextTableId)
      (fun res g' => Touches g g' [] ∧ ∀ p ∈ res.2, g.bound ≤ p.1) g := by
  unfold serializeSystemPage
  refine wlp_ite (fun _ => wlp_lift_bind fun page0 _ => ⟨Touches.refl g [], by simp⟩) fun _ => ?_
  refine wp.bind (wlp_allocateAll _) ?_
  rintro numbers g₁ ⟨ht, hnew⟩
  refine wlp_lift_bind fun pages hpages => wlp_lift_bind fun page0 _ => wlp_lift_bind fun page0' _ => ?_
  exact ⟨ht, fun p hp => hnew _ (linkChunks_pages hpages p hp)⟩

/-- **The registry** is written to page 0 and to new pages. -/
theorem wlp_writeRegistry {metas : List TableMeta} {nextTableId : UInt32} (hpos : 0 < g.pageCount) :
    wlp (writeRegistry metas nextTableId) (fun _ g' => Touches g g' [0]) g := by
  unfold writeRegistry
  refine wp.bind (Q := fun pageCount g₁ => pageCount = g.pageCount ∧ g₁ = g)
    (wlp_readOnly fun _ h => ⟨(Except.ok.inj h).symm, rfl⟩) ?_
  rintro pageCount g₁ ⟨rfl, rfl⟩
  refine wlp_ite (fun hzero => absurd hzero hpos.ne') fun _ => ?_
  refine wp.bind wlp_serializeSystemPage ?_
  rintro ⟨page0, pages⟩ g₂ ⟨ht, hnew⟩
  refine wp.bind (wp_putPage (Q := fun _ g₃ => Touches g₁ g₃ [0])
    fun g₃ hputs => (ht.mono (by simp)).trans (.put hputs)) ?_
  intro _ g₃ ht₃
  refine wlp_forM pages (fun p hp g₄ ht₄ => ?_) ht₃
  exact wp_putPage fun g₅ hputs => ht₄.put_new hputs (hnew p hp)

theorem turns_systemPage (ht : Touches g g' [0]) {P : Set ℕ} (h : systemPage g P) :
    Turns systemPage g P g' := by
  obtain ⟨rfl, hpos⟩ := h
  exact turns_of_touches ⟨rfl, hpos.trans_le ht.bound_le⟩ ht (by simp) fun p hp => .inl hp

/-! ## The database -/

omit [Crc32Fast] in
theorem wlp_inFile {x : StateResult WriteGuard α} {R : α → WriteGuard → Prop}
    (h : wlp x R db.file) :
    wlp (Db.inFile x) (fun a db' => db' = { db with file := db'.file } ∧ R a db'.file) db := by
  rw [wlp_iff] at h ⊢
  intro a db' hrun
  unfold Db.inFile at hrun
  cases hx : x db.file with
  | error e file =>
      rw [hx] at hrun
      cases hrun
  | ok _ file =>
      rw [hx] at hrun
      cases hrun
      exact ⟨rfl, h a file hx⟩

/-- A commit of the file and the log. -/
theorem commitFile_ok {durability : Durability} {tableId : UInt32} {file file' : PageFile}
    {wal wal' : Wal} (h : commitFile durability tableId file wal = .ok (file', wal')) :
    ∃ afterImages, WriteGuard.commit file = .ok (afterImages, file') := by
  unfold commitFile at h
  cases hcommit : WriteGuard.commit file with
  | error e =>
      rw [hcommit] at h
      cases h
  | ok res =>
      obtain ⟨afterImages, file₁⟩ := res
      rw [hcommit] at h
      dsimp only at h
      by_cases hnone : durability = .none
      · rw [if_pos hnone] at h
        cases h
        exact ⟨afterImages, rfl⟩
      · rw [if_neg hnone] at h
        cases hlog : logImages tableId afterImages wal with
        | error e wal₁ =>
            rw [hlog] at h
            cases h
        | ok _ wal₁ =>
            rw [hlog] at h
            cases h
            exact ⟨afterImages, rfl⟩

theorem wlp_dbCommit {tableId : UInt32}
    (h : DbOk storable keyed started db.tables Ms db.file) :
    wlp (Db.commitWrite tableId) (fun _ db' => db' = { db with file := db'.file, wal := db'.wal } ∧
      db'.file.writeState = ⟨∅, 0⟩ ∧ DbOk storable keyed started db.tables Ms db'.file) db := by
  rw [wlp_iff]
  intro _ db' hrun
  unfold Db.commitWrite at hrun
  cases hcommit : commitFile db.durability tableId db.file db.wal with
  | error e =>
      rw [hcommit] at hrun
      cases hrun
  | ok res =>
      rw [hcommit] at hrun
      cases hrun
      obtain ⟨afterImages, hcommit⟩ := commitFile_ok hcommit
      exact ⟨rfl, (commit_eq hcommit).2.1, h.commit hcommit⟩

/-- **Writing the registry** keeps the tables. -/
theorem wlp_persistRegistry (h : DbOk storable keyed true db.tables Ms db.file)
    (hpos : 0 < db.file.pageCount) :
    wlp Db.persistRegistry (fun _ db' => db' = { db with file := db'.file, wal := db'.wal } ∧
      DbInv storable keyed db' Ms) db := by
  unfold Db.persistRegistry
  refine wlp_get_bind.mpr (wp.bind (wlp_inFile (wlp_writeRegistry hpos)) ?_)
  rintro _ db₁ ⟨hdb₁, ht⟩
  have hok : DbOk storable keyed true db₁.tables Ms db₁.file := by
    rw [hdb₁]
    exact h.registry fun P hP => turns_systemPage ht hP
  refine (wlp_dbCommit hok).post ?_
  rintro _ db' ⟨hdb', hclean, hok'⟩
  refine ⟨by rw [hdb', hdb₁], hclean, true, ?_⟩
  rw [hdb']
  exact hok'

theorem DbInv.pageCount_pos (h : DbInv storable keyed db Ms) {state : TableMeta}
    (hname : db.tables.lookup table = some state) : 0 < db.file.pageCount := by
  obtain ⟨started, hok⟩ := h.ok
  obtain rfl := hok.isStarted hname
  obtain ⟨Q, P, hP, -⟩ := hok.owned
  have hpage := hP.owns none
  rw [owners, if_pos rfl] at hpage
  rw [← bound_eq_pageCount h.clean]
  exact hpage.2

/-- **A call on a table**, from what it does to it. -/
theorem wlp_withTable {x : StateResult Session α} {Q : α → Session → TableModel → Prop}
    (h : DbInv storable keyed db Ms)
    (hx : ∀ state P, db.tables.lookup table = some state →
      TableOk storable keyed state (Ms table) →
      TableAt state.rootPage state.indexes (Ms table) db.file P →
      wlp x (fun a s' => ∃ M', Q a s' M' ∧
        TableStep storable keyed ⟨state, db.file, db.wal, db.durability, db.maxRowSize⟩ s' P
          (Ms table) M') ⟨state, db.file, db.wal, db.durability, db.maxRowSize⟩) :
    wlp (Db.withTable table x) (fun a db' => ∃ state s' M', db.tables.lookup table = some state ∧
      x ⟨state, db.file, db.wal, db.durability, db.maxRowSize⟩ = .ok a s' ∧ Q a s' M' ∧
      state.nextRowid ≤ s'.state.nextRowid ∧ db' = db.leave table s' ∧
        DbInv storable keyed db' (Function.update Ms table M')) db := by
  rw [wlp_iff]
  intro a db' hrun
  unfold Db.withTable at hrun
  cases hname : db.tables.lookup table with
  | none =>
      rw [hname] at hrun
      cases hrun
  | some state =>
      rw [hname] at hrun
      dsimp only at hrun
      obtain ⟨started, hok⟩ := h.ok
      obtain ⟨htable, P, hP, hback⟩ := hok.table hname
      cases hres : x ⟨state, db.file, db.wal, db.durability, db.maxRowSize⟩ with
      | error e s' =>
          rw [hres] at hrun
          cases hrun
      | ok _ s' =>
          rw [hres] at hrun
          cases hrun
          obtain ⟨M', hQ, hstep⟩ := (hx state P hname htable hP).ok hres
          exact ⟨state, s', M', rfl, hres, hQ, hstep.next, rfl, hstep.clean, started,
            hback _ _ _ (hstep.ok htable) hstep.turns⟩

/-! ## Row operations -/

omit [Crc32Fast] in
theorem wlp_replied {σ β : Type} {reply : α → β} {x : StateResult σ α} {Q : α → σ → Prop} {s : σ}
    (h : wlp x Q s) :
    wlp (x >>= fun a => pure (reply a)) (fun r s' => ∃ a, r = reply a ∧ Q a s') s :=
  wp.bind h fun a _ hQ => ⟨a, rfl, hQ⟩

/-- **A row operation** is a step of its table. -/
theorem wlp_inPlace {s : Session} {M : TableModel} {P : Set ℕ} (call : RowCall)
    (h : TableAt s.state.rootPage s.state.indexes M s.file P) (hclean : s.file.writeState = ⟨∅, 0⟩)
    (hstore : ∀ id row, storable id row → Storable id row) :
    wlp (call.inPlace (.watched storable)) (fun _ s' => ∃ M', True ∧
      TableStep storable keyed s s' P M M') s := by
  cases call with
  | insert data =>
      refine (wlp_replied (wlp_insert h hstore)).post ?_
      rintro _ s' ⟨_, -, -, row, -, -, -, -, M', -, hstep⟩
      exact ⟨M', trivial, hstep.tableStep⟩
  | insertWithId rowid data =>
      refine (wlp_replied (wlp_insertWithId h hstore)).post ?_
      rintro _ s' ⟨_, -, row, -, -, -, -, M', -, hstep⟩
      exact ⟨M', trivial, hstep.tableStep⟩
  | insertMany rows =>
      refine (wlp_replied (wlp_insertMany h hstore)).post ?_
      rintro _ s' ⟨_, -, entries, M', -, -, -, hstep⟩
      exact ⟨M', trivial, hstep.tableStep⟩
  | update id fields =>
      refine (wlp_replied (wlp_update h hclean hstore)).post ?_
      rintro _ s' ⟨_, -, -, hcase⟩
      cases hrow : M.rows id with
      | none =>
          rw [hrow] at hcase
          subst hcase
          exact ⟨M, trivial, TableStep.refl h hclean⟩
      | some old =>
          rw [hrow] at hcase
          obtain ⟨existing, row, -, -, -, M', -, hstep⟩ := hcase
          exact ⟨M', trivial, hstep.tableStep⟩
  | updateWhere filters fields =>
      refine (wlp_replied (wlp_updateWhere h hstore)).post ?_
      rintro _ s' ⟨_, -, leaves, branches, updates, -, -, -, -, -, -, M', -, hstep⟩
      exact ⟨M', trivial, hstep.tableStep⟩
  | delete id =>
      refine (wlp_replied (wlp_delete h hclean)).post ?_
      rintro _ s' ⟨_, -, -, M', -, hstep⟩
      exact ⟨M', trivial, hstep.tableStep⟩
  | deleteWhere filters =>
      refine (wlp_replied (wlp_deleteWhere h)).post ?_
      rintro _ s' ⟨_, -, leaves, branches, deleted, -, -, -, -, -, M', -, hstep⟩
      exact ⟨M', trivial, hstep.tableStep⟩

/-- A row operation outside ACID mode. -/
theorem wlp_rowInPlace (h : DbInv storable keyed db Ms) (call : RowCall)
    (hstore : ∀ id row, storable id row → Storable id row) :
    wlp (Db.withTable table (call.inPlace (.watched storable)))
      (fun _ db' => DbMoves storable keyed db db') db := by
  refine (wlp_withTable (Q := fun _ _ _ => True) h fun state P _ _ hP =>
    wlp_inPlace call hP h.clean hstore).post ?_
  rintro _ db' ⟨state, s', M', hname, -, -, hle, hdb', hinv⟩
  exact .oneTable hinv hname (by rw [hdb']; rfl) hle

/-! ## Schema operations -/

/-- A change of one table and of the registry, from what it does to the table. -/
theorem wlp_alterTable_of {x : StateResult Session Unit}
    {Q : TableMeta → TableMeta → TableModel → Prop} (h : DbInv storable keyed db Ms)
    (hx : ∀ state P, db.tables.lookup table = some state →
      TableOk storable keyed state (Ms table) →
      TableAt state.rootPage state.indexes (Ms table) db.file P →
      wlp x (fun _ s' => ∃ M', Q state s'.state M' ∧ TableStep storable keyed
          ⟨state, db.file, db.wal, db.durability, db.maxRowSize⟩ s' P (Ms table) M')
        ⟨state, db.file, db.wal, db.durability, db.maxRowSize⟩) :
    wlp (Db.alterTable table x) (fun _ db' => ∃ state state' M',
      db.tables.lookup table = some state ∧ Q state state' M' ∧
      state.nextRowid ≤ state'.nextRowid ∧ db'.tables = db.tables.replace table state' ∧
      DbInv storable keyed db' (Function.update Ms table M')) db := by
  unfold Db.alterTable
  refine wp.bind (wlp_withTable
    (Q := fun _ s' M' => ∀ state, db.tables.lookup table = some state → Q state s'.state M') h
    fun state P hname hok hP => (hx state P hname hok hP).post ?_) ?_
  · rintro _ s' ⟨M', hQ, hstep⟩
    refine ⟨M', fun state' hname' => ?_, hstep⟩
    rw [hname] at hname'
    rw [← Option.some.inj hname']
    exact hQ
  · rintro _ db₁ ⟨state, s', M', hname, -, hQ, hle, hdb₁, hinv⟩
    have hhere : db₁.tables.lookup table = some s'.state := by
      rw [hdb₁]
      exact AList.lookup_replace (Option.isSome_of_eq_some hname)
    obtain ⟨started, hok⟩ := hinv.ok
    obtain rfl := hok.isStarted hhere
    refine (wlp_persistRegistry hok (hinv.pageCount_pos hhere)).post ?_
    rintro _ db' ⟨hdb', hinv'⟩
    exact ⟨state, s'.state, M', hname, hQ state hname, hle, by rw [hdb', hdb₁]; rfl, hinv'⟩

theorem wlp_alterTable {x : StateResult Session Unit} (h : DbInv storable keyed db Ms)
    (hx : ∀ state P, db.tables.lookup table = some state →
      TableOk storable keyed state (Ms table) →
      TableAt state.rootPage state.indexes (Ms table) db.file P →
      wlp x (fun _ s' => ∃ M', TableStep storable keyed
          ⟨state, db.file, db.wal, db.durability, db.maxRowSize⟩ s' P (Ms table) M')
        ⟨state, db.file, db.wal, db.durability, db.maxRowSize⟩) :
    wlp (Db.alterTable table x) (fun _ db' => DbMoves storable keyed db db') db := by
  refine (wlp_alterTable_of (Q := fun _ _ _ => True) h fun state P hname hok hP =>
    (hx state P hname hok hP).post fun _ _ ⟨M', hstep⟩ => ⟨M', trivial, hstep⟩).post ?_
  rintro _ db' ⟨state, state', M', hname, -, hle, htables, hinv⟩
  exact .oneTable hinv hname htables hle

theorem wlp_dbCreateIndexEx {indexName : String} {columns : List String} {unique : Bool}
    (h : DbInv storable keyed db Ms) :
    wlp (Db.createIndexEx (.watched storable) table indexName columns unique)
      (fun _ db' => DbMoves storable keyed db db') db := by
  unfold Db.createIndexEx
  refine wlp_ite (fun _ => wlp_throw) fun hcolumns => wlp_alterTable h fun state P _ _ hP => ?_
  refine (wlp_createIndex keyed hP h.clean fun hnil => hcolumns (List.isEmpty_iff.mpr hnil)).post ?_
  rintro _ s' ⟨cols, rows, M', rootPage, -, -, -, -, -, hstep⟩
  exact ⟨M', hstep⟩

theorem wlp_dbDropIndex {indexName : String} (h : DbInv storable keyed db Ms) :
    wlp (Db.dropIndex table indexName) (fun _ db' => DbMoves storable keyed db db') db := by
  refine wlp_alterTable h fun state P _ _ hP => (wlp_dropIndex storable keyed hP h.clean).post ?_
  rintro _ s' ⟨pos, M', -, -, hstep⟩
  exact ⟨M', hstep⟩

theorem wlp_dbAddColumn {column : ColumnDef} (h : DbInv storable keyed db Ms) :
    wlp (Db.addColumn table column) (fun _ db' => DbMoves storable keyed db db') db := by
  unfold Db.addColumn
  refine wlp_lift_bind fun _ _ => wlp_alterTable h fun state P _ _ hP =>
    (wlp_addColumn storable keyed hP h.clean).post ?_
  rintro _ s' ⟨-, -, hstep⟩
  exact ⟨_, hstep⟩

theorem wlp_dbDropColumn {name : String} (h : DbInv storable keyed db Ms) :
    wlp (Db.dropColumn table name) (fun _ db' => DbMoves storable keyed db db') db := by
  refine wlp_alterTable h fun state P _ _ hP => (wlp_dropColumn storable keyed hP h.clean).post ?_
  rintro _ s' ⟨-, -, hstep⟩
  exact ⟨_, hstep⟩

theorem wlp_dbRenameColumn {old new : String} (h : DbInv storable keyed db Ms)
    (hkeeps : keyed → ∀ state, db.tables.lookup table = some state → KeepsTypes state old new) :
    wlp (Db.renameColumn table old new) (fun _ db' => DbMoves storable keyed db db') db := by
  unfold Db.renameColumn
  refine wlp_lift_bind fun _ _ => wlp_alterTable h fun state P hname _ hP =>
    (wlp_renameColumn storable keyed hP h.clean fun hkeyed => hkeeps hkeyed state hname).post ?_
  rintro _ s' ⟨-, -, -, hstep⟩
  exact ⟨_, hstep⟩

/-! ## Tables -/

/-- In a file without pages nothing is owned yet; its first page is for the registry. -/
theorem wlp_firstPage (h : DbInv storable keyed db Ms) (hzero : db.file.pageCount = 0) :
    wlp (discard (Db.inFile allocatePage)) (fun _ db' =>
      db' = { db with file := db'.file } ∧ DbOk storable keyed true db.tables Ms db'.file) db := by
  have hbound : WriteGuard.bound db.file = 0 := (bound_eq_pageCount h.clean).trans hzero
  have hnames : ∀ name, db.tables.lookup name = none := by
    intro name
    cases hname : db.tables.lookup name with
    | none => rfl
    | some state => exact absurd hzero (h.pageCount_pos hname).ne'
  have halloc : wlp allocatePage (fun _ g₁ => Allocates db.file g₁) db.file :=
    wp_allocatePage (fun g₁ halloc => halloc) fun _ _ _ => trivial
  refine wp.bind (wlp_inFile halloc) ?_
  rintro p db₁ ⟨hdb₁, halloc⟩
  refine ⟨hdb₁, ⟨_, fun i => if i = none then {0} else ∅, ⟨fun i => ?_, fun i j hij => ?_⟩, rfl⟩,
    fun name state hname => ?_, nofun⟩
  · cases i with
    | none =>
        rw [if_pos rfl, owners, if_pos rfl]
        refine ⟨rfl, ?_⟩
        rw [halloc.bound]
        exact Nat.succ_pos _
    | some name =>
        rw [if_neg (Option.some_ne_none name), owners, hnames name]
        rfl
  · show Disjoint (if i = none then ({0} : Set ℕ) else ∅) (if j = none then {0} else ∅)
    by_cases hi : i = none
    · have hj : j ≠ none := fun hj => hij (hi.trans hj.symm)
      rw [if_neg hj]
      exact Set.disjoint_empty _
    · rw [if_neg hi]
      exact Set.empty_disjoint _
  · rw [hnames name] at hname
    cases hname

theorem DbInv.isStarted (h : DbInv storable keyed db Ms) (hpos : db.file.pageCount ≠ 0) :
    DbOk storable keyed true db.tables Ms db.file := by
  obtain ⟨started, hok⟩ := h.ok
  have hstarted : started = true := by
    by_contra hnot
    refine hpos ?_
    rw [← bound_eq_pageCount h.clean]
    exact (hok.fresh (Bool.eq_false_of_not_eq_true hnot)).2
  rw [← hstarted]
  exact hok

omit [Crc32Fast] in
/-- A new table has no rows. -/
theorem TableOk.new {name : String} {tableId : UInt32} {columns : List ColumnDef} {root : ℕ} :
    TableOk storable keyed (TableMeta.new name tableId columns root) ⟨fun _ => none, fun _ => ∅⟩ where
  inv := ⟨nofun, ⟨∅, by simp, rfl⟩, nofun⟩
  names := List.nodup_nil
  led := nofun
  live := nofun
  typed _ := nofun
  indexed _ := by
    intro i idx hi
    cases hi

/-- **A table is created** with these columns and no rows. -/
theorem wlp_createTable_new {name : String} {columns : List ColumnDef}
    (h : DbInv storable keyed db Ms) :
    wlp (Db.createTable name columns) (fun _ db' => ∃ root, db.tables.lookup name = none ∧
      db'.tables = db.tables.insert name (TableMeta.new name db.nextTableId columns root) ∧
      DbInv storable keyed db' (Function.update Ms name ⟨fun _ => none, fun _ => ∅⟩)) db := by
  unfold Db.createTable
  refine wlp_get_bind.mpr (wlp_ite (fun _ => wlp_throw) fun hfree => ?_)
  have hnone : db.tables.lookup name = none := by
    rw [← Option.not_isSome_iff_eq_none]
    exact hfree
  have hrest : ∀ db₁ : Db, db₁ = { db with file := db₁.file } →
      DbOk storable keyed true db.tables Ms db₁.file →
      wlp (do
        let root ← Db.inFile BTreeWriter.create
        let nextTableId ← addOne32 db.nextTableId
        modify fun db => { db with nextTableId }
        Db.commitWrite db.nextTableId
        modify fun db' => { db' with
          tables := db'.tables.insert name (TableMeta.new name db.nextTableId columns root) }
        Db.persistRegistry) (fun _ db' => ∃ root, db.tables.lookup name = none ∧
          db'.tables = db.tables.insert name (TableMeta.new name db.nextTableId columns root) ∧
          DbInv storable keyed db' (Function.update Ms name ⟨fun _ => none, fun _ => ∅⟩)) db₁ := by
    intro db₁ hdb₁ hok
    have hcreate : wlp BTreeWriter.create (fun root g' =>
        Turns (RowsAt root fun _ => none) db₁.file ∅ g') db₁.file := wp_create_rowsAt fun _ _ => trivial
    refine wp.bind (wlp_inFile hcreate) ?_
    rintro root db₂ ⟨hdb₂, hturn⟩
    refine wlp_lift_bind fun next _ => ?_
    set state := TableMeta.new name db.nextTableId columns root with hstate
    set Ms' := Function.update Ms name ⟨fun _ => none, fun _ => ∅⟩ with hMs'
    have hnew : DbOk storable keyed true (db.tables.insert name state) Ms' db₂.file :=
      hok.newTable hnone rfl rfl TableOk.new hturn
    refine wlp_modify_bind.mpr ?_
    -- the commit does not know the table yet; it only publishes pages
    have hcommit : wlp (Db.commitWrite db.nextTableId) (fun _ db' =>
        db' = { db₂ with nextTableId := next, file := db'.file, wal := db'.wal } ∧
        db'.file.writeState = ⟨∅, 0⟩ ∧
        DbOk storable keyed true (db.tables.insert name state) Ms' db'.file)
        { db₂ with nextTableId := next } := by
      rw [wlp_iff]
      intro _ db' hrun
      unfold Db.commitWrite at hrun
      dsimp only at hrun
      cases hres : commitFile db₂.durability db.nextTableId db₂.file db₂.wal with
      | error e =>
          rw [hres] at hrun
          cases hrun
      | ok res =>
          rw [hres] at hrun
          cases hrun
          obtain ⟨afterImages, hcommit⟩ := commitFile_ok hres
          exact ⟨rfl, (commit_eq hcommit).2.1, hnew.commit hcommit⟩
    refine wp.bind hcommit ?_
    rintro _ db₄ ⟨hdb₄, hclean, hok₄⟩
    have htables : db₄.tables = db.tables := by rw [hdb₄, hdb₂, hdb₁]
    refine wlp_modify_bind.mpr ?_
    have hok₅ : DbOk storable keyed true (db₄.tables.insert name state) Ms' db₄.file := by
      rw [htables]
      exact hok₄
    have hpos : 0 < db₄.file.pageCount := by
      obtain ⟨Q, P, hP, -⟩ := hok₅.owned
      have hpage := hP.owns none
      rw [owners, if_pos rfl] at hpage
      rw [← bound_eq_pageCount hclean]
      exact hpage.2
    refine (@wlp_persistRegistry _ { db₄ with tables := db₄.tables.insert name state } _ _ _ hok₅
      hpos).post ?_
    rintro _ db' ⟨hdb', hinv⟩
    refine ⟨root, hnone, ?_, hinv⟩
    rw [hdb']
    dsimp only
    rw [htables]
  refine wlp_ite (fun hzero => wp.bind (wlp_firstPage h hzero) ?_) fun hpos => ?_
  · rintro _ db₁ ⟨hdb₁, hok⟩
    exact hrest db₁ hdb₁ hok
  · exact hrest db rfl (h.isStarted hpos)

theorem wlp_createTable {name : String} {columns : List ColumnDef}
    (h : DbInv storable keyed db Ms) :
    wlp (Db.createTable name columns) (fun _ db' => DbMoves storable keyed db db') db := by
  refine (wlp_createTable_new h).post ?_
  rintro _ db' ⟨root, hnone, htables, hinv⟩
  refine ⟨⟨_, hinv⟩, fun k st st' hst hst' => ?_⟩
  have hne : k ≠ name := by
    rintro rfl
    rw [hnone] at hst
    cases hst
  rw [htables, AList.lookup_insert_ne hne, hst] at hst'
  rw [Option.some.inj hst']

theorem wlp_dropTable {name : String} (h : DbInv storable keyed db Ms) :
    wlp (Db.dropTable name) (fun _ db' => DbMoves storable keyed db db') db := by
  unfold Db.dropTable
  refine wlp_get_bind.mpr (wlp_ite (fun _ => wlp_throw) fun hhere => ?_)
  obtain ⟨state, hname⟩ : ∃ state, db.tables.lookup name = some state := by
    rw [← Option.isSome_iff_exists, Option.isSome_iff_ne_none]
    simpa using hhere
  obtain ⟨started, hok⟩ := h.ok
  obtain rfl := hok.isStarted hname
  refine wlp_modify_bind.mpr ?_
  refine (@wlp_persistRegistry _ { db with tables := db.tables.erase name } _ _ _ hok.dropTable
    (h.pageCount_pos hname)).post ?_
  rintro _ db' ⟨hdb', hinv⟩
  refine ⟨⟨_, hinv⟩, fun k st st' hst hst' => ?_⟩
  rw [hdb'] at hst'
  by_cases heq : k = name
  · subst heq
    rw [AList.lookup_erase] at hst'
    cases hst'
  · rw [AList.lookup_erase_ne heq, hst] at hst'
    rw [Option.some.inj hst']

end

end BoogyDb
