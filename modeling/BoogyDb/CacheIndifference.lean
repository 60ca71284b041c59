import BoogyDb.GuardSections

/-!
# What is cached makes no difference

The programs of the model, from the writers of the trees to the calls of the database, answer
the same on page files that differ in their caches alone (`Alike`), and leave such files behind.
A read of the engine fills the cache; it makes no difference then when it does so, nor whether.
-/

namespace BoogyDb

open Wp WriteGuard

section

variable [Crc32Fast]

/-! ## Tree operations -/

namespace Agrees

variable {α β κ : Type}

/-- A function of a guard that reads pages and counts them. -/
theorem readOnly {f : WriteGuard → Result α} (hf : ∀ g g', Alike g g' → f g' = f g) :
    Agrees (readOnly f) := by
  intro g g' h
  unfold BoogyDb.readOnly
  rw [hf g g' h]
  cases f g with
  | ok a => exact .ok h
  | error e => exact .error h

omit [Crc32Fast] in
theorem lift {σ : Type} {R : σ → σ → Prop} (x : Result α) :
    Respects R (liftM x : StateResult σ α) := by
  intro s s' h
  cases x with
  | ok a => exact .ok h
  | error e => exact .error h

theorem readPage (pageNo : ℕ) : Agrees (readPage pageNo) :=
  readOnly fun g g' h => by rw [h.view]

theorem modifyPage (pageNo : ℕ) (f : Page → Result Page) : Agrees (modifyPage pageNo f) :=
  (readPage _).bind fun _ => (putPage _ _).bind fun _ => (lift _).bind fun _ => putPage _ _

theorem insertInPlace (pageNo : ℕ) (snapshot : Page) (pos : ℕ) (row : List UInt8) :
    Agrees (insertInPlace pageNo snapshot pos row) := modifyPage _ _

theorem removeInPlace (pageNo : ℕ) (snapshot : Page) (pos : ℕ) :
    Agrees (removeInPlace pageNo snapshot pos) := modifyPage _ _

theorem linkBack (nextLeaf newPageNo : ℕ) : Agrees (linkBack nextLeaf newPageNo) :=
  .ite (modifyPage _ _) (.pure _)

theorem splitLeaf (pageNo : ℕ) (snapshot : Page) (pos : ℕ) (row : List UInt8) (mid : ℕ)
    (separator : Result κ) : Agrees (splitLeaf pageNo snapshot pos row mid separator) := by
  refine allocatePage.bind fun _ => (lift _).bind fun _ => (modifyPage _ _).bind fun _ => ?_
  exact (lift _).bind fun _ => (putPage _ _).bind fun _ => (linkBack _ _).bind fun _ => .pure _

theorem insertIntoBranch (fmt : BranchFormat κ) (pageNo childIdx : ℕ) (separator : κ)
    (newChild : ℕ) : Agrees (insertIntoBranch fmt pageNo childIdx separator newChild) := by
  unfold BoogyDb.insertIntoBranch
  refine (readPage _).bind fun page => .ite ((modifyPage _ _).bind fun _ => .pure _) ?_
  refine (lift _).bind fun flat => (lift _).bind fun newKeys => (lift _).bind fun newChildren => ?_
  refine (lift _).bind fun splitKey => (modifyPage _ _).bind fun _ => allocatePage.bind fun _ => ?_
  exact (lift _).bind fun _ => (putPage _ _).bind fun _ => .pure _

theorem insertRecursive [LinearOrder κ] (fmt : BranchFormat κ) (depthError : String) (key : κ)
    {intoLeaf : ℕ → Page → StateResult WriteGuard (InsertResult κ)}
    (hleaf : ∀ pageNo page, Agrees (intoLeaf pageNo page)) (fuel pageNo : ℕ) :
    Agrees (insertRecursive fmt depthError key intoLeaf fuel pageNo) := by
  induction fuel generalizing pageNo with
  | zero => exact .throw _
  | succ fuel ih =>
      unfold BoogyDb.insertRecursive
      refine (readPage _).bind fun page => .ite (hleaf _ _) ?_
      refine (lift _).bind fun found => (ih _).bind fun result => ?_
      cases result with
      | fit => exact .pure _
      | split newPage separator => exact insertIntoBranch fmt _ _ _ _

theorem growRoot (fmt : BranchFormat κ) (root : ℕ) (result : InsertResult κ) :
    Agrees (growRoot fmt root result) := by
  cases result with
  | fit => exact .pure _
  | split newPage separator =>
      refine allocatePage.bind fun _ => (lift _).bind fun _ => (lift _).bind fun _ => ?_
      exact (putPage _ _).bind fun _ => .pure _

theorem writeChain (chunks : List (List UInt8)) (nextPage : ℕ) :
    Agrees (writeChain chunks nextPage) := by
  induction chunks generalizing nextPage with
  | nil => exact .pure _
  | cons chunk chunks ih =>
      exact allocatePage.bind fun pageNo => (lift _).bind fun page =>
        (putPage _ _).bind fun _ => ih pageNo

theorem insertRow (root : ℕ) (rowid : UInt64) (rowData : List UInt8) :
    Agrees (BTreeWriter.insert root rowid rowData) := by
  unfold BTreeWriter.insert
  refine (insertRecursive _ _ _ (fun pageNo page => ?_) _ _).bind fun result => growRoot _ _ _
  unfold BTreeWriter.insertIntoLeaf
  refine (lift _).bind fun found => .ite (.throw _) (.ite ?_ (.ite ?_ ?_))
  · exact (insertInPlace _ _ _ _).bind fun _ => .pure _
  · refine .bind ((lift _).bind fun _ => (writeChain _ _).bind fun _ => .pure _) fun inline => ?_
    refine .ite ?_ ?_
    · exact (insertInPlace _ _ _ _).bind fun _ => .pure _
    · exact (lift _).bind fun mid => splitLeaf _ _ _ _ _ _
  · exact splitLeaf _ _ _ _ _ _

theorem deleteRow (root : ℕ) (rowid : UInt64) : Agrees (BTreeWriter.delete root rowid) := by
  unfold BTreeWriter.delete
  refine (readOnly fun g g' h => by rw [h.view]).bind fun found => ?_
  refine .ite (.pure _) ((lift _).bind fun pos => ?_)
  exact .ite ((removeInPlace _ _ _).bind fun _ => .pure _) (.pure _)

theorem insertKey (root : ℕ) (key : List UInt8) : Agrees (IndexTreeWriter.insert root key) := by
  unfold IndexTreeWriter.insert
  refine (insertRecursive _ _ _ (fun pageNo page => ?_) _ _).bind fun result => growRoot _ _ _
  unfold IndexTreeWriter.insertIntoLeaf
  refine (lift _).bind fun pos => .ite ?_ (splitLeaf _ _ _ _ _ _)
  exact (insertInPlace _ _ _ _).bind fun _ => .pure _

theorem deleteKey (root : ℕ) (key : List UInt8) : Agrees (IndexTreeWriter.delete root key) := by
  unfold IndexTreeWriter.delete
  refine (readOnly fun g g' h => by rw [h.view]).bind fun found => ?_
  refine .ite (.pure _) ((lift _).bind fun pos => ?_)
  cases pos with
  | none => exact .pure _
  | some pos => exact (removeInPlace _ _ _).bind fun _ => .pure _

theorem createTree : Agrees createTree :=
  allocatePage.bind fun _ => (putPage _ _).bind fun _ => .pure _

/-! ### Leaf by leaf -/

theorem rewriteLeaves (cycleError : String) {step : ℕ → Page → α → StateResult WriteGuard α}
    (hstep : ∀ current page acc, Agrees (step current page acc)) (fuel current : ℕ) (acc : α) :
    Agrees (BoogyDb.rewriteLeaves cycleError step fuel current acc) := by
  induction fuel generalizing current acc with
  | zero => exact .throw _
  | succ fuel ih =>
      unfold BoogyDb.rewriteLeaves
      exact (readPage _).bind fun page => (hstep _ _ _).bind fun acc => .ite (.pure _) (ih _ _)

theorem findLeftmostLeafW (root : ℕ) :
    Agrees (BoogyDb.readOnly fun guard => BTreeWriter.findLeftmostLeafW guard root) :=
  readOnly fun g g' h => by
    unfold BTreeWriter.findLeftmostLeafW
    rw [h.view]

theorem maxPages : Agrees (BoogyDb.readOnly maxPages) :=
  readOnly fun g g' h => by
    unfold BoogyDb.maxPages
    rw [h.bound]

theorem deleteMatching (root : ℕ) (pred : List UInt8 → Bool) :
    Agrees (BTreeWriter.deleteMatching root pred) := by
  refine (findLeftmostLeafW _).bind fun _ => maxPages.bind fun _ => rewriteLeaves _ ?_ _ _ _
  intro current page acc
  refine (readOnly fun g g' h => ?_).bind fun matched => ?_
  · unfold BTreeWriter.matchRows
    rw [h.view]
  · exact .ite (.pure _) ((modifyPage _ _).bind fun _ => .pure _)

theorem updateMatching (root : ℕ) (pred : List UInt8 → Bool) (updater : List UInt8 → List UInt8) :
    Agrees (BTreeWriter.updateMatching root pred updater) := by
  refine (findLeftmostLeafW _).bind fun _ => maxPages.bind fun _ => rewriteLeaves _ ?_ _ _ _
  intro current page acc
  refine (readOnly fun g g' h => ?_).bind fun replacements => ?_
  · unfold BTreeWriter.replaceRows
    rw [h.view]
  refine .ite (.pure _) ((readPage _).bind fun wp => (lift _).bind fun rewritten => ?_)
  cases rewritten with
  | some wp => exact (putPage _ _).bind fun _ => .pure _
  | none => exact (putPage _ _).bind fun _ => .pure _

theorem callOnRows (cycleError : String) (root : ℕ)
    (call : (ℕ → Result Page) → List UInt8 → Result Unit) :
    Agrees (Session.callOnRows cycleError root call) :=
  readOnly fun g g' h => by
    unfold BTreeWriter.findLeftmostLeafW BoogyDb.maxPages
    rw [h.view, h.bound]

/-! ### Indexes and the registry -/

theorem updateIndex (state : TableMeta) (idx : IndexMeta) (rowid : UInt64) (bytes : List UInt8)
    (remove : Bool) : Agrees (Session.updateIndex .code state idx rowid bytes remove) := by
  refine (lift _).bind fun key => ?_
  cases key with
  | none => exact .pure _
  | some key =>
      exact .ite ((deleteKey _ _).bind fun _ => .pure _) ((insertKey _ _).bind fun _ => .pure _)

theorem populateIndex (indexName : String) (cols : List (UInt16 × ColumnType)) (unique : Bool)
    (rows : List (UInt64 × List UInt8)) (seen : List (List UInt8)) (root : ℕ) :
    Agrees (Session.populateIndex .code indexName cols unique rows seen root) := by
  induction rows generalizing seen root with
  | nil => exact .pure _
  | cons row rows ih =>
      refine (lift _).bind fun vals => .ite (.throw _) ?_
      dsimp only
      cases encodeCompositeIndexKey vals row.1 with
      | none => exact ih _ _
      | some key => exact (insertKey _ _).bind fun root => ih _ _

theorem serializeSystemPage (metas : List TableRecord) (nextTableId : UInt32) :
    Agrees (BoogyDb.serializeSystemPage metas nextTableId) := by
  refine .ite ((lift _).bind fun _ => .pure _) ?_
  refine (Respects.mapM _ fun _ => allocatePage).bind fun numbers => (lift _).bind fun pages => ?_
  exact (lift _).bind fun page0 => (lift _).bind fun page0 => .pure _

theorem writeRegistry (metas : List TableMeta) (nextTableId : UInt32) :
    Agrees (BoogyDb.writeRegistry metas nextTableId) := by
  unfold BoogyDb.writeRegistry
  refine (readOnly fun g g' h => congrArg Except.ok h.numPages).bind fun pageCount => ?_
  extract_lets rest
  have hrest : Agrees (rest ()) := by
    refine (serializeSystemPage _ _).bind fun r => (putPage _ _).bind fun _ => ?_
    exact .forM _ fun p => putPage _ _
  exact .ite ((allocatePage.bind fun _ => .pure _).bind fun _ => hrest) hrest

/-! ### Rows with their keys -/

theorem insertEntries (rowid : UInt64) (bytes : List UInt8) (infos : List IndexInfo) :
    Agrees (insertEntries .code rowid bytes infos) := by
  induction infos with
  | nil => exact .pure _
  | cons info infos ih =>
      unfold BoogyDb.insertEntries
      refine (lift _).bind fun vals => ?_
      cases encodeCompositeIndexKey vals rowid with
      | some key => exact (insertKey _ _).bind fun _ => ih.bind fun _ => .pure _
      | none => exact .bind (.pure _) fun _ => ih.bind fun _ => .pure _

theorem deleteEntry (rowid : UInt64) (bytes : List UInt8) (info : IndexInfo) :
    Agrees (deleteEntry rowid bytes info) := by
  unfold BoogyDb.deleteEntry
  refine (lift _).bind fun vals => ?_
  cases encodeCompositeIndexKey vals rowid with
  | some key => exact (deleteKey _ _).bind fun _ => .pure _
  | none => exact .pure _

theorem deleteEntries (rowid : UInt64) (bytes : List UInt8) (infos : List IndexInfo) :
    Agrees (deleteEntries rowid bytes infos) := by
  induction infos with
  | nil => exact .pure _
  | cons info infos ih => exact (deleteEntry _ _ _).bind fun _ => ih.bind fun _ => .pure _

theorem replaceEntries (rowid : UInt64) (oldBytes newBytes : List UInt8) (infos : List IndexInfo) :
    Agrees (replaceEntries .code rowid oldBytes newBytes infos) := by
  induction infos with
  | nil => exact .pure _
  | cons info infos ih =>
      unfold BoogyDb.replaceEntries
      refine (deleteEntry _ _ _).bind fun _ => (lift _).bind fun vals => ?_
      cases encodeCompositeIndexKey vals rowid with
      | some key => exact (insertKey _ _).bind fun _ => ih.bind fun _ => .pure _
      | none => exact .bind (.pure _) fun _ => ih.bind fun _ => .pure _

theorem search (root : ℕ) (rowid : UInt64) :
    Agrees (BoogyDb.readOnly fun guard => BTreeWriter.search guard root rowid) :=
  readOnly fun g g' h => by
    unfold BTreeWriter.search
    rw [h.view]

theorem scanAllW (root : ℕ) : Agrees (BoogyDb.readOnly fun guard => BTreeWriter.scanAllW guard root) :=
  readOnly fun g g' h => by
    unfold BTreeWriter.scanAllW BTreeWriter.findLeftmostLeafW BoogyDb.maxPages
    rw [h.view, h.bound]

theorem putRow (rowid : UInt64) (bytes : List UInt8) (root : ℕ) (infos : List IndexInfo) :
    Agrees (putRow .code rowid bytes root infos) :=
  (insertRow _ _ _).bind fun _ => (insertEntries _ _ _).bind fun _ => .pure _

theorem mergeRow (id : UInt64) (fields : List Column) (root : ℕ) (infos : List IndexInfo) :
    Agrees (mergeRow .code id fields root infos) := by
  refine (search _ _).bind fun found => ?_
  cases found with
  | none => exact .pure _
  | some oldBytes =>
      refine (lift _).bind fun existing => (replaceEntries _ _ _ _).bind fun roots => ?_
      exact (deleteRow _ _).bind fun _ => (insertRow _ _ _).bind fun _ => .pure _

theorem removeRow (id : UInt64) (hasIndexes : Bool) (root : ℕ) (infos : List IndexInfo) :
    Agrees (removeRow id hasIndexes root infos) := by
  unfold BoogyDb.removeRow
  extract_lets rest
  have hrest : ∀ rowBytes : Option (List UInt8), Agrees (rest rowBytes) := by
    intro rowBytes
    refine (deleteRow _ _).bind fun deleted => ?_
    cases rowBytes with
    | none => exact .pure _
    | some bytes => exact .ite ((deleteEntries _ _ _).bind fun _ => .pure _) (.pure _)
  exact .ite ((search _ _).bind hrest) (.bind (.pure none) hrest)

end Agrees

/-! ## Commits -/

/-- What two commits end with: the same error, the same log, and files that are alike. -/
inductive CommitsAlike : Except (Fault × PageFile × Wal) (PageFile × Wal) →
    Except (Fault × PageFile × Wal) (PageFile × Wal) → Prop
  | ok {file file' : PageFile} {wal : Wal} (h : Alike file file') :
      CommitsAlike (.ok (file, wal)) (.ok (file', wal))
  | error {e : Fault} {file file' : PageFile} {wal : Wal} (h : Alike file file') :
      CommitsAlike (.error (e, file, wal)) (.error (e, file', wal))

theorem commitFile_alike (durability : Durability) (tableId : UInt32) {g g' : PageFile}
    (h : Alike g g') (wal : Wal) :
    CommitsAlike (commitFile durability tableId g wal) (commitFile durability tableId g' wal) := by
  have hpublish := h.publish
  unfold commitFile
  generalize WriteGuard.commit g = r at hpublish ⊢
  generalize WriteGuard.commit g' = r' at hpublish ⊢
  cases r with
  | error e =>
      cases r' with
      | ok res => exact hpublish.elim
      | error e' =>
          obtain rfl : e' = e := hpublish
          exact .error h
  | ok res =>
      cases r' with
      | error e' => exact hpublish.elim
      | ok res' =>
          obtain ⟨images, file⟩ := res
          obtain ⟨images', file'⟩ := res'
          obtain ⟨rfl, hfile⟩ := hpublish
          dsimp only
          by_cases hnone : durability = .none
          · rw [if_pos hnone, if_pos hnone]
            exact .ok hfile
          rw [if_neg hnone, if_neg hnone]
          cases logImages tableId images' wal with
          | ok _ wal => exact .ok hfile
          | error e wal => exact .error hfile

/-! ## Calls of a transaction -/

/-- Two transactions on databases that differ in their caches alone. -/
def AlikeTx (s s' : InTransaction) : Prop :=
  ∃ file, Alike s.db.file file ∧ s' = ⟨{ s.db with file }, s.tx⟩

theorem AlikeTx.guard {s s' : InTransaction} (h : AlikeTx s s') : Alike s.guard s'.guard := by
  obtain ⟨file, halike, rfl⟩ := h
  unfold InTransaction.guard AcidTransaction.enter WriteGuard.setNewPageCount
    WriteGuard.injectDirty
  dsimp only
  rw [halike.writeState]
  exact halike.withState _

/-- A program that does the same whatever is cached. -/
abbrev Indifferent {α : Type} (x : StateResult InTransaction α) : Prop := Respects AlikeTx x

namespace Indifferent

variable {α β : Type}

/-- A program that looks at the transaction and at the database, but for the file. -/
theorem get_bind {f : InTransaction → StateResult InTransaction α}
    (hsame : ∀ (s : InTransaction) file, Alike s.db.file file →
      f ⟨{ s.db with file }, s.tx⟩ = f s)
    (hf : ∀ s, Indifferent (f s)) : Indifferent (get >>= f) := by
  refine Respects.get_bind ?_ hf
  rintro s _ ⟨file, halike, rfl⟩
  exact hsame s file halike

/-- Under the guard. -/
theorem withGuard {f : StateResult WriteGuard α} (hf : Agrees f) :
    Indifferent (InTransaction.withGuard f) := by
  intro s s' h
  have hends := hf s.guard s'.guard h.guard
  obtain ⟨file, halike, rfl⟩ := h
  unfold InTransaction.withGuard
  generalize f s.guard = r at hends ⊢
  generalize f _ = r' at hends ⊢
  have hleave : ∀ g g' : WriteGuard, Alike g g' → AlikeTx (s.leave g)
      (InTransaction.leave ⟨{ s.db with file }, s.tx⟩ g') := by
    intro g g' hg
    refine ⟨g'.discard, hg.withState _, ?_⟩
    unfold InTransaction.leave
    rw [hg.writeState]
  cases hends with
  | ok hg => exact .ok (hleave _ _ hg)
  | @error e g g' hg =>
      refine .error ?_
      split
      · exact ⟨g', hg, rfl⟩
      · exact hleave _ _ hg

theorem tableState (table : String) : Indifferent (InTransaction.tableState table) := by
  refine get_bind (fun _ _ _ => rfl) fun s => ?_
  cases s.db.tables.lookup table with
  | some state => exact .pure _
  | none => exact .throw _

/-- A change of the transaction alone. -/
theorem modifyTx (f : AcidTransaction → AcidTransaction) :
    Indifferent (modify fun s => { s with tx := f s.tx } : StateResult InTransaction PUnit) := by
  refine .modify ?_
  rintro s _ ⟨file, halike, rfl⟩
  exact ⟨file, halike, rfl⟩

theorem changeDelta (table : String) (fresh : MetaDelta) (f : MetaDelta → MetaDelta) :
    Indifferent (InTransaction.changeDelta table fresh f) :=
  modifyTx fun tx => { tx with
    metaDeltas := tx.metaDeltas.insert table (f ((tx.metaDeltas.lookup table).getD fresh)) }

theorem enforceUniqueIndexesAcid (table : String) (state : TableMeta) (bytes : List UInt8) :
    Indifferent (InTransaction.enforceUniqueIndexesAcid table state bytes) := by
  refine get_bind (fun s file h => ?_) fun s => ?_
  · have hcheck : ∀ idx, enforceUniqueAcid { s.db with file } s.tx table state bytes idx =
        enforceUniqueAcid s.db s.tx table state bytes idx := by
      intro idx
      unfold enforceUniqueAcid IndexTreeReader.scanPrefix IndexTreeReader.scanWith
        IndexTreeReader.findLeafForKey PageFile.pageCount
      dsimp only
      rw [h.readPage, h.numPages]
    simp only [hcheck]
  · refine (Respects.forM _ fun idx => Agrees.lift _).bind fun _ => ?_
    refine (Respects.filterMapM _ fun idx => (Agrees.lift _).bind fun _ => .pure _).bind fun seen => ?_
    exact modifyTx fun tx => { tx with uniqueSeen := seen ++ tx.uniqueSeen }

/-! ### Rows -/

theorem insertAs (table : String) (state : TableMeta) (rowid : UInt64) (data : RowData)
    (freshNext : UInt64) (nextRowid : Result UInt64) :
    Indifferent (InTransaction.insertAs .code table state rowid data freshNext nextRowid) := by
  refine get_bind (fun _ _ _ => rfl) fun s => .ite (.throw _) ?_
  refine (enforceUniqueIndexesAcid _ _ _).bind fun _ => ?_
  refine (withGuard (Agrees.putRow _ _ _ _)).bind fun roots => (Agrees.lift _).bind fun _ => ?_
  exact changeDelta _ _ _

theorem insert (table : String) (data : RowData) :
    Indifferent (InTransaction.insert .code table data) := by
  refine (tableState table).bind fun state => (Agrees.lift _).bind fun _ => ?_
  exact get_bind (fun _ _ _ => rfl) fun s => (insertAs _ _ _ _ _ _).bind fun _ => .pure _

theorem insertWithId (table : String) (rowid : UInt64) (data : RowData) :
    Indifferent (InTransaction.insertWithId .code table rowid data) :=
  (tableState table).bind fun _ => (Agrees.lift _).bind fun _ =>
    get_bind (fun _ _ _ => rfl) fun _ => insertAs _ _ _ _ _ _

theorem update (table : String) (id : UInt64) (fields : RowData) :
    Indifferent (InTransaction.update .code table id fields) := by
  refine (tableState table).bind fun state => (Agrees.lift _).bind fun _ => ?_
  refine get_bind (fun _ _ _ => rfl) fun s => ?_
  refine (withGuard (Agrees.mergeRow _ _ _ _)).bind fun merged => ?_
  exact .ite ((changeDelta _ _ _).bind fun _ => .pure _) (.bind (.pure _) fun _ => .pure _)

theorem delete (table : String) (id : UInt64) : Indifferent (InTransaction.delete table id) := by
  refine (tableState table).bind fun state => get_bind (fun _ _ _ => rfl) fun s => ?_
  refine (withGuard (Agrees.removeRow _ _ _ _)).bind fun removed => ?_
  exact .ite ((changeDelta _ _ _).bind fun _ => .pure _) (.bind (.pure _) fun _ => .pure _)

theorem countCalls {x : UInt64 → StateResult InTransaction Bool} (hx : ∀ id, Indifferent (x id))
    (ids : List UInt64) : Indifferent (InTransaction.countCalls x ids) := by
  induction ids with
  | nil => exact .pure _
  | cons id ids ih => exact (hx id).bind fun _ => ih.bind fun _ => .pure _

/-! ### Reads -/

theorem scanAll (table : String) (state : TableMeta) :
    Indifferent (InTransaction.scanAll table state) :=
  get_bind (fun _ _ _ => rfl) fun _ => withGuard (Agrees.scanAllW _)

theorem get? (table : String) (id : UInt64) : Indifferent (InTransaction.get? table id) := by
  refine (tableState table).bind fun state => get_bind (fun _ _ _ => rfl) fun s => ?_
  refine (withGuard (Agrees.search _ _)).bind fun found => ?_
  cases found with
  | none => exact .pure _
  | some bytes => exact (Agrees.lift _).bind fun _ => .pure _

theorem find (table : String) (opts : FindOptions) :
    Indifferent (InTransaction.find table opts) :=
  (tableState table).bind fun _ => (scanAll _ _).bind fun _ => (Agrees.lift _).bind fun _ =>
    (Agrees.lift _).bind fun _ => .pure _

theorem countWith (table : String) (filters : List Filter) (orGroups : List (List Filter)) :
    Indifferent (InTransaction.countWith table filters orGroups) :=
  (tableState table).bind fun _ => get_bind (fun _ _ _ => rfl) fun _ => .ite (.pure _)
    ((scanAll _ _).bind fun _ => (Agrees.lift _).bind fun _ => .pure _)

theorem scanBatch (table : String) (filters : List Filter) (orGroups : List (List Filter))
    (order : ScanOrder) (after : Option ScanKey) (limit : UInt32) :
    Indifferent (InTransaction.scanBatch table filters orGroups order after limit) := by
  unfold InTransaction.scanBatch
  refine .ite (.pure _) ((tableState table).bind fun state => ?_)
  cases order.kind with
  | primaryKey =>
      exact (scanAll _ _).bind fun _ => (Agrees.lift _).bind fun _ => (Agrees.lift _).bind fun _ =>
        .pure _
  | index name =>
      dsimp only
      cases state.findIndex name with
      | none => exact .throw _
      | some idx =>
          exact (Agrees.lift _).bind fun _ => (scanAll _ _).bind fun _ =>
            (Agrees.lift _).bind fun _ => Agrees.lift _

theorem matchingIds (table : String) (state : TableMeta) (filters : List Filter) :
    Indifferent (InTransaction.matchingIds table state filters) :=
  (scanAll _ _).bind fun _ => (Agrees.lift _).bind fun _ => .pure _

/-! ### Calls of several operations -/

theorem row (table : String) (call : RowCall) :
    Indifferent (call.inTransaction .code table) := by
  cases call with
  | insert data => exact (insert _ _).bind fun _ => .pure _
  | insertWithId rowid data => exact (insertWithId _ _ _).bind fun _ => .pure _
  | insertMany rows => exact (Respects.mapM rows (insert table)).bind fun _ => .pure _
  | update id fields => exact (update _ _ _).bind fun _ => .pure _
  | updateWhere filters fields =>
      refine Respects.bind ?_ fun _ => .pure _
      refine (tableState table).bind fun _ => (Agrees.lift _).bind fun _ => ?_
      exact (matchingIds _ _ _).bind fun ids => countCalls (fun id => update table id fields) ids
  | delete id => exact (delete _ _).bind fun _ => .pure _
  | deleteWhere filters =>
      refine Respects.bind ?_ fun _ => .pure _
      refine (tableState table).bind fun _ => ?_
      exact (matchingIds _ _ _).bind fun ids => countCalls (delete table) ids

theorem upsert (table : String) (key set : RowData) :
    Indifferent (InTransaction.upsert .code table key set) := by
  refine (tableState table).bind fun state => .ite ((find _ _).bind fun existing => ?_) (.throw _)
  cases existing.rows with
  | cons row rows => exact (update _ _ _).bind fun _ => .pure _
  | nil => exact insert _ _

theorem upsertIncrement (table : String) (key : RowData) (counter : String) (delta : Value)
    (set : RowData) : Indifferent (InTransaction.upsertIncrement .code table key counter delta set) := by
  unfold InTransaction.upsertIncrement
  extract_lets rest
  have hrest : Indifferent (rest ()) := by
    refine (find _ _).bind fun existing => ?_
    cases existing.rows with
    | cons row rows =>
        refine (tableState table).bind fun state => (Agrees.lift _).bind fun current => ?_
        exact (Agrees.lift _).bind fun newValue => (update _ _ _).bind fun _ => .pure _
    | nil => exact insert _ _
  cases delta with
  | integer d => exact hrest
  | real d => exact hrest
  | _ => exact .throw _

/-- **A call of a transaction answers the same whatever is cached.** -/
theorem perform (call : TxCall) : Indifferent (call.perform .code) := by
  cases call with
  | row table call => exact (row table call).bind fun _ => .pure _
  | upsert table key set => exact (upsert _ _ _).bind fun _ => .pure _
  | upsertIncrement table key counter delta set =>
      exact (upsertIncrement _ _ _ _ _).bind fun _ => .pure _
  | get table id => exact (get? _ _).bind fun _ => .pure _
  | find table opts => exact (find _ _).bind fun _ => .pure _
  | countWith table filters orGroups => exact (countWith _ _ _).bind fun _ => .pure _
  | scanBatch table filters orGroups order after limit =>
      exact (scanBatch _ _ _ _ _ _).bind fun _ => .pure _

/-- **A commit publishes the same whatever is cached.** -/
theorem commit : Indifferent InTransaction.commit := by
  rintro s _ ⟨file, halike, rfl⟩
  have hguard : Alike (s.tx.enter s.db.file) (s.tx.enter file) :=
    @AlikeTx.guard _ s ⟨{ s.db with file }, s.tx⟩ ⟨file, halike, rfl⟩
  unfold InTransaction.commit
  dsimp only
  by_cases hempty : (s.tx.privateDirty.entries.isEmpty && s.tx.metaDeltas.entries.isEmpty) = true
  · rw [if_pos hempty, if_pos hempty]
    exact .ok ⟨file, halike, rfl⟩
  rw [if_neg hempty, if_neg hempty]
  have hends := commitFile_alike s.db.durability
    (((s.tx.metaDeltas.entries.map fun e => (e.1, e.2)).head?.map fun d => d.2.tableId).getD 0)
    hguard s.db.wal
  generalize commitFile s.db.durability _ (s.tx.enter s.db.file) s.db.wal = r at hends ⊢
  generalize commitFile s.db.durability _ (s.tx.enter file) s.db.wal = r' at hends ⊢
  cases hends with
  | ok hfile => exact .ok ⟨_, hfile, rfl⟩
  | error hfile => exact .error ⟨_, hfile, rfl⟩

end Indifferent

/-! ## Operations on a table -/

section

variable {f f' : PageFile} {α : Type}

theorem Alike.search (h : Alike f f') : BTreeReader.search f' = BTreeReader.search f := by
  unfold BTreeReader.search
  rw [h.readPage]

theorem Alike.scanAll (h : Alike f f') : BTreeReader.scanAll f' = BTreeReader.scanAll f := by
  unfold BTreeReader.scanAll PageFile.pageCount
  rw [h.readPage, h.numPages]

theorem Alike.scanWith (h : Alike f f') {cycleError : String} {push : α → List UInt8 → α}
    {full : α → Bool} {init : α} : IndexTreeReader.scanWith cycleError push full init f' =
      IndexTreeReader.scanWith cycleError push full init f := by
  unfold IndexTreeReader.scanWith IndexTreeReader.findLeafForKey PageFile.pageCount
  rw [h.readPage, h.numPages]

theorem Alike.enforceUniqueIndexes (h : Alike f f') :
    Session.enforceUniqueIndexes f' = Session.enforceUniqueIndexes f := by
  unfold Session.enforceUniqueIndexes Session.enforceUnique IndexTreeReader.scanPrefix
  simp only [h.scanWith]

/-! ### Queries -/

theorem Alike.multiGetSorted (h : Alike f f') :
    BTreeReader.multiGetSorted f' = BTreeReader.multiGetSorted f := by
  unfold BTreeReader.multiGetSorted BTreeReader.findLeafForRowid PageFile.pageCount
  rw [h.readPage, h.numPages]

theorem Alike.scanAllMatching (h : Alike f f') :
    BTreeReader.scanAllMatching f' = BTreeReader.scanAllMatching f := by
  unfold BTreeReader.scanAllMatching BTreeReader.findLeftmostLeaf PageFile.pageCount
  rw [h.readPage, h.numPages]

theorem Alike.scanFiltered (h : Alike f f') :
    BTreeReader.scanFiltered f' = BTreeReader.scanFiltered f := by
  unfold BTreeReader.scanFiltered BTreeReader.findLeftmostLeaf PageFile.pageCount
  rw [h.readPage, h.numPages]

theorem Alike.countFiltered (h : Alike f f') :
    BTreeReader.countFiltered f' = BTreeReader.countFiltered f := by
  unfold BTreeReader.countFiltered BTreeReader.findLeftmostLeaf PageFile.pageCount
  rw [h.readPage, h.numPages]

theorem Alike.find (h : Alike f f') : BoogyDb.find f' = BoogyDb.find f := by
  have hindex : findByIndex f' = findByIndex f := by
    unfold findByIndex indexRowids IndexTreeReader.scanPrefix IndexTreeReader.scanPrefixLimit
    simp only [h.scanWith, h.multiGetSorted]
  have hscan : findByScan f' = findByScan f := by
    unfold findByScan
    rw [h.scanAllMatching]
  unfold BoogyDb.find collectMatching findByFilter findAll
  simp only [hindex, hscan, h.scanFiltered, h.scanAll]

theorem Alike.countWith (h : Alike f f') : BoogyDb.countWith f' = BoogyDb.countWith f := by
  unfold BoogyDb.countWith countByScan countByIndex countByFilter IndexTreeReader.countPrefix
  simp only [h.scanAll, h.scanWith, h.countFiltered]

theorem Alike.scanBatch (h : Alike f f') : BoogyDb.scanBatch f' = BoogyDb.scanBatch f := by
  have hfrom : BTreeReader.scanFrom f' = BTreeReader.scanFrom f := by
    unfold BTreeReader.scanFrom BTreeReader.startLeaf BTreeReader.findLeafForRowid
      BTreeReader.findLeftmostLeaf BTreeReader.findRightmostLeaf PageFile.pageCount
    rw [h.readPage, h.numPages]
  have hkeys : IndexTreeReader.scanFromKey f' = IndexTreeReader.scanFromKey f := by
    unfold IndexTreeReader.scanFromKey IndexTreeReader.startLeaf IndexTreeReader.findLeafForKey
      IndexTreeReader.findLeftmostLeaf IndexTreeReader.findRightmostLeaf PageFile.pageCount
    rw [h.readPage, h.numPages]
  have hrows : ∀ root passes keys acc,
      fetchRows f' root passes keys acc = fetchRows f root passes keys acc := by
    intro root passes keys
    induction keys with
    | nil => exact fun acc => rfl
    | cons key keys ih =>
        intro acc
        unfold fetchRows
        simp only [h.search, ih]
  unfold BoogyDb.scanBatch
  simp only [hfrom, hkeys, hrows]

end

/-- Two sessions whose files differ in their caches alone. -/
def AlikeSession (s s' : Session) : Prop := ∃ file, Alike s.file file ∧ s' = { s with file }

namespace AlikeSession

variable {α β : Type}

theorem get_bind {f : Session → StateResult Session α}
    (hsame : ∀ (s : Session) file, Alike s.file file → f { s with file } = f s)
    (hf : ∀ s, Respects AlikeSession (f s)) : Respects AlikeSession (get >>= f) := by
  refine Respects.get_bind ?_ hf
  rintro s _ ⟨file, halike, rfl⟩
  exact hsame s file halike

theorem inGuard {x : StateResult WriteGuard α} (hx : Agrees x) :
    Respects AlikeSession (inGuard x) := by
  rintro s _ ⟨file, halike, rfl⟩
  have hends := hx s.file file halike
  unfold BoogyDb.inGuard
  dsimp only
  generalize x s.file = r at hends ⊢
  generalize x file = r' at hends ⊢
  cases hends with
  | ok hg => exact .ok ⟨_, hg, rfl⟩
  | error hg => exact .error ⟨_, hg, rfl⟩

theorem modifyState (f : TableMeta → TableMeta) : Respects AlikeSession (modifyState f) := by
  rintro s _ ⟨file, halike, rfl⟩
  exact .ok ⟨file, halike, rfl⟩

theorem commitWrite : Respects AlikeSession commitWrite := by
  rintro s _ ⟨file, halike, rfl⟩
  have hends := commitFile_alike s.durability s.state.tableId halike s.wal
  unfold BoogyDb.commitWrite
  dsimp only
  generalize commitFile s.durability s.state.tableId s.file s.wal = r at hends ⊢
  generalize commitFile s.durability s.state.tableId file s.wal = r' at hends ⊢
  cases hends with
  | ok hfile => exact .ok ⟨_, hfile, rfl⟩
  | error hfile => exact .error ⟨_, hfile, rfl⟩

theorem replied {x : StateResult Session α} {reply : α → Reply} (hx : Respects AlikeSession x) :
    Respects AlikeSession (BoogyDb.replied reply x) := hx.bind fun _ => .pure _

theorem indexUpdateRow (id : UInt64) (bytes : List UInt8) (remove : Bool) :
    Respects AlikeSession (Session.indexUpdateRow .code id bytes remove) := by
  have hloop : ∀ rest done,
      Respects AlikeSession (Session.indexUpdateLoop .code id bytes remove done rest) := by
    intro rest
    induction rest with
    | nil => exact fun done => .pure ()
    | cons idx rest ih =>
        intro done
        refine get_bind (fun _ _ _ => rfl) fun s => (inGuard (Agrees.updateIndex _ _ _ _ _)).bind ?_
        exact fun idx => (modifyState _).bind fun _ => ih _
  exact get_bind (fun _ _ _ => rfl) fun s => hloop _ _

theorem insertRow (id : UInt64) (row : List UInt8) :
    Respects AlikeSession (Session.insertRow .code id row) :=
  get_bind (fun _ _ _ => rfl) fun _ => (inGuard (Agrees.insertRow _ _ _)).bind fun _ =>
    (modifyState _).bind fun _ => (indexUpdateRow _ _ _).bind fun _ => commitWrite

theorem countRow : Respects AlikeSession Session.countRow :=
  get_bind (fun _ _ _ => rfl) fun _ => (Agrees.lift _).bind fun _ => modifyState _

theorem insert (data : RowData) : Respects AlikeSession (Session.insert .code data) := by
  unfold Session.insert
  refine get_bind (fun s file h => ?_) fun s => ?_
  · dsimp only
    rw [h.enforceUniqueIndexes]
  refine (Agrees.lift _).bind fun _ => (Agrees.lift _).bind fun next => ?_
  refine (modifyState _).bind fun _ => .ite (.throw _) ?_
  cases Session.enforceUniqueIndexes s.file s.state
      (encodeRow s.state.nextRowid (columnValues s.state data)) with
  | ok _ => exact (insertRow _ _).bind fun _ => countRow.bind fun _ => .pure _
  | error e =>
      cases e with
      | error e => exact (modifyState _).bind fun _ => .throw _
      | panic => exact .throw _
      | overflow => exact .throw _
      | unspecified => exact .throw _

theorem insertWithId (rowid : UInt64) (data : RowData) :
    Respects AlikeSession (Session.insertWithId .code rowid data) := by
  have hlast : ∀ row, Respects AlikeSession (do
      Session.insertRow .code rowid row
      Session.countRow) := fun row => (insertRow _ _).bind fun _ => countRow
  unfold Session.insertWithId
  refine get_bind (fun s file h => ?_) fun s => ?_
  · dsimp only
    rw [h.enforceUniqueIndexes]
  refine (Agrees.lift _).bind fun _ => .ite (.throw _) ((Agrees.lift _).bind fun _ => ?_)
  exact .ite ((Agrees.lift _).bind fun _ => (modifyState _).bind fun _ => hlast _) (hlast _)

theorem insertMany (rows : List RowData) :
    Respects AlikeSession (Session.insertMany .code rows) := by
  have hloop : ∀ (rows : List RowData) root nextRowid ids,
      Respects AlikeSession (Session.insertManyLoop .code rows root nextRowid ids) := by
    intro rows
    induction rows with
    | nil => exact fun _ _ _ => .pure _
    | cons data rows ih =>
        intro root rowid ids
        refine get_bind (fun _ _ _ => rfl) fun s => (Agrees.lift _).bind fun next => ?_
        refine .ite (.throw _) ((inGuard (Agrees.insertRow _ _ _)).bind fun root => ?_)
        exact (indexUpdateRow _ _ _).bind fun _ => ih _ _ _
  refine get_bind (fun _ _ _ => rfl) fun s => ?_
  refine (Respects.forM _ fun _ => Agrees.lift _).bind fun _ => (hloop _ _ _ _).bind fun r => ?_
  exact commitWrite.bind fun _ => (Agrees.lift _).bind fun _ => (modifyState _).bind fun _ => .pure _

theorem update (id : UInt64) (fields : RowData) :
    Respects AlikeSession (Session.update .code id fields) := by
  unfold Session.update
  refine get_bind (fun s file h => ?_) fun s => ?_
  · dsimp only
    rw [h.search]
  refine (Agrees.lift _).bind fun _ => (Agrees.lift _).bind fun found => ?_
  cases found with
  | none => exact .pure _
  | some old =>
      refine (Agrees.lift _).bind fun existing => .bind ?_ fun _ => .pure _
      refine (indexUpdateRow _ _ _).bind fun _ => get_bind (fun _ _ _ => rfl) fun s => ?_
      refine (inGuard (Agrees.deleteRow _ _)).bind fun _ => ?_
      refine (inGuard (Agrees.insertRow _ _ _)).bind fun root => (modifyState _).bind fun _ => ?_
      exact (indexUpdateRow _ _ _).bind fun _ => commitWrite

theorem delete (id : UInt64) : Respects AlikeSession (Session.delete .code id) := by
  have hcount : ∀ deleted : Bool, Respects AlikeSession (do
      if deleted then do
        let s ← get
        let rowCount ← subtract s.state.rowCount 1
        BoogyDb.modifyState fun state => { state with rowCount }
      else pure ()
      pure deleted : StateResult Session Bool) := by
    intro deleted
    refine .ite ?_ (.pure _)
    exact get_bind (fun _ _ _ => rfl) fun s => (Agrees.lift _).bind fun _ =>
      (modifyState _).bind fun _ => .pure _
  unfold Session.delete
  refine get_bind (fun s file h => ?_) fun s => ?_
  · dsimp only
    rw [h.search]
  extract_lets rest
  have hrest : ∀ rowBytes : Option (List UInt8), Respects AlikeSession (rest rowBytes) := by
    intro rowBytes
    refine (inGuard (Agrees.deleteRow _ _)).bind fun deleted => ?_
    have hcommit := commitWrite.bind fun _ => hcount deleted
    cases rowBytes with
    | none => exact hcommit
    | some bytes => exact .ite ((indexUpdateRow _ _ _).bind fun _ => hcommit) hcommit
  exact .ite (hrest none) ((Agrees.lift _).bind hrest)

theorem updateWhere (filters : List Filter) (fields : RowData) :
    Respects AlikeSession (Session.updateWhere .code filters fields) := by
  have hreinsert : ∀ updates, Respects AlikeSession (Session.reinsertRows .code updates) := by
    intro updates
    induction updates with
    | nil => exact .pure _
    | cons update updates ih =>
        refine get_bind (fun _ _ _ => rfl) fun s => (inGuard (Agrees.deleteRow _ _)).bind fun _ => ?_
        refine (inGuard (Agrees.insertRow _ _ _)).bind fun root => ?_
        exact (modifyState _).bind fun _ => ih
  have hreindex : ∀ updates, Respects AlikeSession (Session.reindexRows .code updates) := by
    intro updates
    induction updates with
    | nil => exact .pure _
    | cons update updates ih =>
        exact (indexUpdateRow _ _ _).bind fun _ => (indexUpdateRow _ _ _).bind fun _ => ih
  refine get_bind (fun _ _ _ => rfl) fun s => (Agrees.lift _).bind fun _ => ?_
  refine (inGuard (Agrees.callOnRows _ _ _)).bind fun _ => ?_
  refine (inGuard (Agrees.updateMatching _ _ _)).bind fun updates => (hreinsert _).bind fun _ => ?_
  exact (hreindex _).bind fun _ => commitWrite.bind fun _ => .pure _

theorem deleteWhere (filters : List Filter) :
    Respects AlikeSession (Session.deleteWhere .code filters) := by
  have hunindex : ∀ deleted, Respects AlikeSession (Session.unindexRows .code deleted) := by
    intro deleted
    induction deleted with
    | nil => exact .pure _
    | cons row deleted ih => exact (indexUpdateRow _ _ _).bind fun _ => ih
  refine get_bind (fun _ _ _ => rfl) fun s => (inGuard (Agrees.callOnRows _ _ _)).bind fun _ => ?_
  refine (inGuard (Agrees.deleteMatching _ _)).bind fun deleted => (hunindex _).bind fun _ => ?_
  refine commitWrite.bind fun _ => get_bind (fun _ _ _ => rfl) fun s => ?_
  exact (Agrees.lift _).bind fun _ => (modifyState _).bind fun _ => .pure _

theorem inPlace (call : RowCall) : Respects AlikeSession (call.inPlace .code) := by
  cases call with
  | insert data => exact replied (insert data)
  | insertWithId rowid data => exact replied (insertWithId rowid data)
  | insertMany rows => exact replied (insertMany rows)
  | update id fields => exact replied (update id fields)
  | updateWhere filters fields => exact replied (updateWhere filters fields)
  | delete id => exact replied (delete id)
  | deleteWhere filters => exact replied (deleteWhere filters)

/-! ### The schema -/

theorem createIndex (table indexName : String) (columns : List String) (unique : Bool) :
    Respects AlikeSession (Session.createIndex .code table indexName columns unique) := by
  unfold Session.createIndex
  refine get_bind (fun s file h => ?_) fun s => ?_
  · dsimp only
    rw [h.scanAll]
  refine .ite (.throw _) ((Agrees.lift _).bind fun cols => (Agrees.lift _).bind fun all => ?_)
  refine (inGuard Agrees.createTree).bind fun root => ?_
  refine (inGuard (Agrees.populateIndex _ _ _ _ _ _)).bind fun rootPage => ?_
  exact commitWrite.bind fun _ => modifyState _

theorem dropIndex (indexName : String) : Respects AlikeSession (Session.dropIndex indexName) := by
  refine get_bind (fun _ _ _ => rfl) fun s => ?_
  cases s.state.indexes.findIdx? fun idx => idx.name = indexName with
  | none => exact .throw _
  | some pos => exact modifyState _

theorem addColumn (table : String) (column : ColumnDef) :
    Respects AlikeSession (Session.addColumn table column) :=
  get_bind (fun _ _ _ => rfl) fun _ => .ite (.throw _) (.ite (.throw _) (modifyState _))

theorem renameColumn (table old new : String) :
    Respects AlikeSession (Session.renameColumn table old new) :=
  get_bind (fun _ _ _ => rfl) fun _ => .ite (.throw _) (.ite (.throw _) (modifyState _))

theorem dropColumn (table name : String) :
    Respects AlikeSession (Session.dropColumn table name) := by
  refine get_bind (fun _ _ _ => rfl) fun s => .ite (.throw _) ?_
  cases s.state.indexes.find? fun idx => decide (name ∈ idx.columns) with
  | none => exact modifyState _
  | some idx => exact .throw _

end AlikeSession

/-! ## Calls of the database -/

/-- Two databases whose files differ in their caches alone. -/
def AlikeDb (db db' : Db) : Prop := ∃ file, Alike db.file file ∧ db' = { db with file }

namespace AlikeDb

variable {α β : Type}

theorem get_bind {f : Db → StateResult Db α}
    (hsame : ∀ (db : Db) file, Alike db.file file → f { db with file } = f db)
    (hf : ∀ db, Respects AlikeDb (f db)) : Respects AlikeDb (get >>= f) := by
  refine Respects.get_bind ?_ hf
  rintro db _ ⟨file, halike, rfl⟩
  exact hsame db file halike

theorem inFile {x : StateResult WriteGuard α} (hx : Agrees x) :
    Respects AlikeDb (Db.inFile x) := by
  rintro db _ ⟨file, halike, rfl⟩
  have hends := hx db.file file halike
  unfold Db.inFile
  dsimp only
  generalize x db.file = r at hends ⊢
  generalize x file = r' at hends ⊢
  cases hends with
  | ok hg => exact .ok ⟨_, hg, rfl⟩
  | error hg => exact .error ⟨_, hg, rfl⟩

theorem commitWrite (tableId : UInt32) : Respects AlikeDb (Db.commitWrite tableId) := by
  rintro db _ ⟨file, halike, rfl⟩
  have hends := commitFile_alike db.durability tableId halike db.wal
  unfold Db.commitWrite
  dsimp only
  generalize commitFile db.durability tableId db.file db.wal = r at hends ⊢
  generalize commitFile db.durability tableId file db.wal = r' at hends ⊢
  cases hends with
  | ok hfile => exact .ok ⟨_, hfile, rfl⟩
  | error hfile => exact .error ⟨_, hfile, rfl⟩

/-- A change that leaves the file. -/
theorem modifyRest (f : Db → Db)
    (hf : ∀ (db : Db) file, f { db with file } = { f db with file } ∧ (f db).file = db.file) :
    Respects AlikeDb (modify f : StateResult Db PUnit) := by
  refine .modify ?_
  rintro db _ ⟨file, halike, rfl⟩
  exact ⟨file, (hf db file).2 ▸ halike, (hf db file).1⟩

theorem persistRegistry : Respects AlikeDb Db.persistRegistry :=
  get_bind (fun _ _ _ => rfl) fun _ => (inFile (Agrees.writeRegistry _ _)).bind fun _ =>
    commitWrite _

theorem withTable (table : String) {x : StateResult Session α} (hx : Respects AlikeSession x) :
    Respects AlikeDb (Db.withTable table x) := by
  rintro db _ ⟨file, halike, rfl⟩
  unfold Db.withTable
  dsimp only
  cases db.tables.lookup table with
  | none => exact .error ⟨file, halike, rfl⟩
  | some state =>
      have hends := hx ⟨state, db.file, db.wal, db.durability, db.maxRowSize⟩
        ⟨state, file, db.wal, db.durability, db.maxRowSize⟩ ⟨file, halike, rfl⟩
      dsimp only
      generalize x ⟨state, db.file, db.wal, db.durability, db.maxRowSize⟩ = r at hends ⊢
      generalize x ⟨state, file, db.wal, db.durability, db.maxRowSize⟩ = r' at hends ⊢
      cases hends with
      | ok hs =>
          obtain ⟨file', halike', rfl⟩ := hs
          exact .ok ⟨file', halike', rfl⟩
      | error hs =>
          obtain ⟨file', halike', rfl⟩ := hs
          exact .error ⟨file', halike', rfl⟩

theorem inTransaction {x : StateResult InTransaction α} (hx : Indifferent x) :
    Respects AlikeDb (Db.inTransaction x) := by
  rintro db _ ⟨file, halike, rfl⟩
  have hall : Indifferent (do let a ← x; InTransaction.commit; pure a) :=
    hx.bind fun a => Indifferent.commit.bind fun _ => .pure a
  have hends := hall ⟨db, .new⟩ ⟨{ db with file }, .new⟩ ⟨file, halike, rfl⟩
  unfold Db.inTransaction
  generalize (do let a ← x; InTransaction.commit; pure a : StateResult InTransaction α) ⟨db, .new⟩ = r
    at hends ⊢
  generalize (do let a ← x; InTransaction.commit; pure a : StateResult InTransaction α)
    ⟨{ db with file }, .new⟩ = r' at hends ⊢
  cases hends with
  | ok hs =>
      obtain ⟨file', halike', rfl⟩ := hs
      exact .ok ⟨file', halike', rfl⟩
  | error hs =>
      obtain ⟨file', halike', rfl⟩ := hs
      exact .error ⟨file', halike', rfl⟩

theorem createTable (name : String) (columns : List ColumnDef) :
    Respects AlikeDb (Db.createTable name columns) := by
  unfold Db.createTable
  refine get_bind (fun db file h => ?_) fun db => .ite (.throw _) ?_
  · dsimp only
    unfold PageFile.pageCount
    rw [h.numPages]
  have hrest : Respects AlikeDb (do
      let root ← Db.inFile BTreeWriter.create
      let nextTableId ← addOne32 db.nextTableId
      modify fun db => { db with nextTableId }
      Db.commitWrite db.nextTableId
      modify fun db' => { db' with
        tables := db'.tables.insert name (TableMeta.new name db.nextTableId columns root) }
      Db.persistRegistry : StateResult Db Unit) := by
    refine (inFile Agrees.createTree).bind fun root => (Agrees.lift _).bind fun nextTableId => ?_
    refine (modifyRest (fun db => { db with nextTableId }) fun _ _ => ⟨rfl, rfl⟩).bind fun _ => ?_
    refine (commitWrite _).bind fun _ => ?_
    refine (modifyRest (fun db' => { db' with
      tables := db'.tables.insert name (TableMeta.new name db.nextTableId columns root) })
      fun _ _ => ⟨rfl, rfl⟩).bind fun _ => ?_
    exact persistRegistry
  exact .ite (((inFile Agrees.allocatePage).bind fun _ => .pure _).bind fun _ => hrest) hrest

theorem alterTable (table : String) {x : StateResult Session Unit}
    (hx : Respects AlikeSession x) : Respects AlikeDb (Db.alterTable table x) :=
  (withTable table hx).bind fun _ => persistRegistry

theorem replied {x : StateResult Db α} {reply : α → Reply} (hx : Respects AlikeDb x) :
    Respects AlikeDb (BoogyDb.replied reply x) := hx.bind fun _ => .pure _

/-- **A read of a row answers the same whatever is cached.** -/
theorem get?_eq {db db' : Db} (h : AlikeDb db db') : db'.get? = db.get? := by
  obtain ⟨file, halike, rfl⟩ := h
  unfold Db.get?
  dsimp only
  rw [halike.search]

/-- **A call of the database answers the same whatever is cached.** -/
theorem perform (call : Call) : Respects AlikeDb (call.perform .code) := by
  cases call with
  | row table call =>
      exact get_bind (fun _ _ _ => rfl) fun _ => .ite (inTransaction (Indifferent.row table call))
        (withTable table (AlikeSession.inPlace call))
  | upsert table key set => exact replied (inTransaction (Indifferent.upsert _ _ _))
  | upsertIncrement table key counter delta set =>
      exact replied (inTransaction (Indifferent.upsertIncrement _ _ _ _ _))
  | createTable name columns => exact replied (createTable name columns)
  | dropTable name =>
      refine replied (get_bind (fun _ _ _ => rfl) fun db => .ite (.throw _) ?_)
      exact (modifyRest (fun db => { db with tables := db.tables.erase name })
        fun _ _ => ⟨rfl, rfl⟩).bind fun _ => persistRegistry
  | createIndexEx table indexName columns unique =>
      exact replied (.ite (.throw _) (alterTable _ (AlikeSession.createIndex _ _ _ _)))
  | dropIndex table indexName => exact replied (alterTable _ (AlikeSession.dropIndex _))
  | addColumn table column =>
      exact replied ((Agrees.lift _).bind fun _ => alterTable _ (AlikeSession.addColumn _ _))
  | renameColumn table old new =>
      exact replied ((Agrees.lift _).bind fun _ => alterTable _ (AlikeSession.renameColumn _ _ _))
  | dropColumn table name => exact replied (alterTable _ (AlikeSession.dropColumn _ _))
  | setDurability durability =>
      exact (modifyRest (fun db => { db with durability }) fun _ _ => ⟨rfl, rfl⟩).bind fun _ => .pure _
  | setAcid enabled =>
      exact (modifyRest (fun db => { db with acid := enabled }) fun _ _ => ⟨rfl, rfl⟩).bind fun _ =>
        .pure _
  | setMaxRowSize bytes =>
      exact (modifyRest (fun db => { db with maxRowSize := bytes }) fun _ _ => ⟨rfl, rfl⟩).bind
        fun _ => .pure _

end AlikeDb

end

end BoogyDb
