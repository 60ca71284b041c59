import BoogyDb.KeySet
import BoogyDb.TransactionRuns

/-!
# Where `DuplicateKey` comes from

Only the insertion of a row into a leaf fails with `DuplicateKey`, and only where the leaf has
the row id.  Every other part of an insertion fails in other ways (`NoDuplicate`,
`NoDuplicateIn`).
-/

namespace BoogyDb

open Bytes Wp WriteGuard BinarySearch FencedTree

/-- The fault is not a row id that is in use. -/
def Fault.OtherThanDuplicate (e : Fault) : Prop := ∀ id, e ≠ .error (.duplicateKey id)

section

variable {σ α β : Type}

/-- `x` does not fail with `DuplicateKey`. -/
def NoDuplicate (x : Result α) : Prop := ∀ e, x = .error e → e.OtherThanDuplicate

/-- `x` run from `s` does not fail with `DuplicateKey`. -/
def NoDuplicateAt (x : StateResult σ α) (s : σ) : Prop :=
  wp x (fun _ _ => True) (fun e _ => e.OtherThanDuplicate) s

/-- `x` never fails with `DuplicateKey`. -/
def NoDuplicateIn (x : StateResult σ α) : Prop := ∀ s, NoDuplicateAt x s

namespace NoDuplicate

theorem ok (a : α) : NoDuplicate (.ok a : Result α) := nofun

theorem pure (a : α) : NoDuplicate (pure a : Result α) := nofun

theorem panic : NoDuplicate (BoogyDb.panic : Result α) := by
  rintro _ ⟨⟩ id h
  cases h

theorem overflowed : NoDuplicate (BoogyDb.overflowed : Result α) := by
  rintro _ ⟨⟩ id h
  cases h

theorem fail {e : BoogyError} (h : ∀ id, e ≠ .duplicateKey id) :
    NoDuplicate (BoogyDb.fail e : Result α) := by
  rintro _ ⟨⟩ id heq
  cases heq
  exact h id rfl

theorem bind {x : Result α} {f : α → Result β} (hx : NoDuplicate x)
    (hf : ∀ a, NoDuplicate (f a)) : NoDuplicate (x >>= f) := by
  intro e h
  cases x with
  | ok a => exact hf a e h
  | error e' =>
      cases h
      exact hx e rfl

theorem ite {c : Prop} [Decidable c] {x y : Result α} (hx : NoDuplicate x) (hy : NoDuplicate y) :
    NoDuplicate (if c then x else y) := by
  split
  · exact hx
  · exact hy

theorem mapM {f : α → Result β} (hf : ∀ a, NoDuplicate (f a)) (l : List α) :
    NoDuplicate (l.mapM f) := by
  induction l with
  | nil => exact pure _
  | cons a l ih =>
      rw [List.mapM_cons]
      exact (hf a).bind fun _ => ih.bind fun _ => pure _

theorem foldlM {f : β → α → Result β} (hf : ∀ b a, NoDuplicate (f b a)) (l : List α) (b : β) :
    NoDuplicate (l.foldlM f b) := by
  induction l generalizing b with
  | nil => exact pure _
  | cons a l ih =>
      rw [List.foldlM_cons]
      exact (hf b a).bind ih

theorem forM {f : α → Result Unit} (hf : ∀ a, NoDuplicate (f a)) (l : List α) :
    NoDuplicate (l.forM f) := by
  induction l with
  | nil => exact pure _
  | cons a l ih => exact (hf a).bind fun _ => ih

theorem bsearch {probe : ℕ → Result Ordering} (h : ∀ i, NoDuplicate (probe i)) (lo hi : ℕ) :
    NoDuplicate (BinarySearch.bsearch probe lo hi) := by
  intro e he
  obtain ⟨i, -, -, hi⟩ := bsearch_error he
  exact h i e hi

/-! ### Bytes and pages -/

theorem bytesOf (data : List UInt8) (start stop : ℕ) :
    NoDuplicate (BoogyDb.bytesOf data start stop) := ite (ok _) panic

theorem readU16 (data : List UInt8) (off : ℕ) : NoDuplicate (BoogyDb.readU16 data off) :=
  (bytesOf _ _ _).bind fun _ => pure _

theorem readU32 (data : List UInt8) (off : ℕ) : NoDuplicate (BoogyDb.readU32 data off) :=
  (bytesOf _ _ _).bind fun _ => pure _

theorem readU64 (data : List UInt8) (off : ℕ) : NoDuplicate (BoogyDb.readU64 data off) :=
  (bytesOf _ _ _).bind fun _ => pure _

theorem copyFromSlice (p : Page) (off : ℕ) (src : List UInt8) :
    NoDuplicate (p.copyFromSlice off src) := ite (ok _) panic

theorem rowBounds (page : Page) (i numRows : ℕ) : NoDuplicate (BoogyDb.rowBounds page i numRows) :=
  (readU16 _ _).bind fun _ => ite ((readU16 _ _).bind fun _ => pure _) ((pure _).bind fun _ => pure _)

theorem rowSlice (page : Page) (i numRows : ℕ) : NoDuplicate (BoogyDb.rowSlice page i numRows) :=
  (rowBounds _ _ _).bind fun _ => bytesOf _ _ _

theorem sourceBytes (snapshot : Page) (oldCount : ℕ) (source : RowSource) :
    NoDuplicate (source.bytes snapshot oldCount) := by
  cases source with
  | given bytes => exact pure _
  | kept idx => exact (rowBounds _ _ _).bind fun _ => ite overflowed (bytesOf _ _ _)

theorem rebuildLeaf (page snapshot : Page) (oldCount total next prev : ℕ)
    (sources : List RowSource) :
    NoDuplicate (BoogyDb.rebuildLeaf page snapshot oldCount total next prev sources) :=
  (foldlM (fun _ _ => (sourceBytes _ _ _).bind fun _ => (copyFromSlice _ _ _).bind fun _ =>
    (copyFromSlice _ _ _).bind fun _ => pure _) _ _).bind fun _ => pure _

theorem sourceSize (snapshot : Page) (oldCount : ℕ) (source : RowSource) :
    NoDuplicate (source.size snapshot oldCount) := by
  cases source with
  | given bytes => exact pure _
  | kept idx => exact (rowBounds _ _ _).bind fun _ => ite overflowed (pure _)

/-! ### Rows -/

theorem ensureBytes (data : List UInt8) (offset need : ℕ) :
    NoDuplicate (BoogyDb.ensureBytes data offset need) := ite (fail nofun) (ok _)

theorem decodeValue (data : List UInt8) : NoDuplicate (BoogyDb.decodeValue data) := by
  refine (ensureBytes _ _ _).bind fun _ => ?_
  split
  · exact pure _
  · refine (ensureBytes _ _ _).bind fun _ => (readU32 _ _).bind fun _ =>
      (ensureBytes _ _ _).bind fun _ => (bytesOf _ _ _).bind fun _ => ?_
    split
    · exact pure _
    · exact fail nofun
  · exact (ensureBytes _ _ _).bind fun _ => (readU64 _ _).bind fun _ => pure _
  · exact (ensureBytes _ _ _).bind fun _ => (readU64 _ _).bind fun _ => pure _
  · exact (ensureBytes _ _ _).bind fun _ => (readU32 _ _).bind fun _ =>
      (ensureBytes _ _ _).bind fun _ => (bytesOf _ _ _).bind fun _ => pure _
  · exact (ensureBytes _ _ _).bind fun _ => pure _
  · exact fail nofun

theorem extractId (data : List UInt8) : NoDuplicate (BoogyDb.extractId data) :=
  (ensureBytes _ _ _).bind fun _ => readU64 _ _

theorem extractColumn (data : List UInt8) (target : UInt16) :
    NoDuplicate (BoogyDb.extractColumn data target) := by
  have hprobe : ∀ mid, NoDuplicate (probeColumn data target mid) := fun mid =>
    (ensureBytes _ _ _).bind fun _ => ((readU16 _ _).bind fun _ => pure _).bind fun _ => pure _
  refine (ensureBytes _ _ _).bind fun _ => (ensureBytes _ _ _).bind fun _ =>
    (readU16 _ _).bind fun _ => ite (pure _) ((bsearch hprobe _ _).bind fun _ => ite ?_ (pure _))
  exact (readU16 _ _).bind fun _ =>
    ((bytesOf _ _ _).bind fun _ => (decodeValue _).bind fun _ => pure _).bind fun _ => pure _

theorem indexValues (cols : List (UInt16 × ColumnType)) (bytes : List UInt8) :
    NoDuplicate (BoogyDb.indexValues cols bytes) :=
  mapM (fun _ => (extractColumn _ _).bind fun _ => pure _) _

theorem indexPrefix (state : TableMeta) (columns : List String) (bytes : List UInt8) :
    NoDuplicate (BoogyDb.indexPrefix state columns bytes) := by
  unfold BoogyDb.indexPrefix
  split
  · exact pure _
  · exact (indexValues _ _).bind fun _ => pure _

theorem indexKey (state : TableMeta) (columns : List String) (rowid : UInt64)
    (bytes : List UInt8) : NoDuplicate (BoogyDb.indexKey state columns rowid bytes) := by
  unfold BoogyDb.indexKey
  split
  · exact pure _
  · exact (indexValues _ _).bind fun _ => pure _

theorem enforceIndexTypes (state : TableMeta) (data : RowData) :
    NoDuplicate (Session.enforceIndexTypes state data) := by
  refine forM (fun idx => ?_) _
  split
  · exact panic
  · split
    · exact pure _
    · refine ite (pure _) ?_
      split
      · exact pure _
      · refine ite (fail nofun) ?_
        split
        · exact ite (fail nofun) (pure _)
        · exact ite (fail nofun) (pure _)
        · exact pure _

theorem addOne (n : UInt64) : NoDuplicate (BoogyDb.addOne n) := ite (ok _) overflowed

theorem addCount (n : UInt64) (k : ℕ) : NoDuplicate (BoogyDb.addCount n k) :=
  ite (ok _) overflowed

/-! ### Trees -/

section

variable {κ : Type} {fmt : BranchFormat κ}

theorem index (list : List α) (idx : ℕ) : NoDuplicate (BranchFormat.index list idx) := by
  unfold BranchFormat.index
  split
  · exact ok _
  · exact panic

theorem vecInsert (list : List α) (idx : ℕ) (a : α) :
    NoDuplicate (BranchFormat.vecInsert list idx a) := ite (ok _) panic

theorem writeBranchEntry (page : Page) (idx child : ℕ) (key : κ) :
    NoDuplicate (fmt.writeBranchEntry page idx child key) :=
  (copyFromSlice _ _ _).bind fun _ => copyFromSlice _ _ _

theorem rebuildBranchFlat (page : Page) (children : List ℕ) (keys : List κ) :
    NoDuplicate (fmt.rebuildBranchFlat page children keys) := by
  have hentries : ∀ page idx, NoDuplicate (fmt.writeEntries children page idx keys) := by
    induction keys with
    | nil => exact fun _ _ => (index _ _).bind fun _ => copyFromSlice _ _ _
    | cons key keys ih =>
        exact fun _ _ => (index _ _).bind fun _ => (writeBranchEntry _ _ _ _).bind fun _ => ih _ _
  exact hentries _ _

variable (hread : ∀ data off, NoDuplicate (fmt.readKey data off))
include hread

theorem findChild [LinearOrder κ] (page : Page) (key : κ) :
    NoDuplicate (fmt.findChild page key) := by
  have hloop : ∀ n idxs, NoDuplicate (fmt.findChildLoop page key n idxs) := by
    intro n idxs
    induction idxs with
    | nil => exact (readU32 _ _).bind fun _ => pure _
    | cons i idxs ih =>
        exact (hread _ _).bind fun _ => ite ((readU32 _ _).bind fun _ => pure _) ih
  exact hloop _ _

theorem collectBranchFlat (page : Page) : NoDuplicate (fmt.collectBranchFlat page) :=
  (mapM (fun _ => readU32 _ _) _).bind fun _ => (mapM (fun _ => hread _ _) _).bind fun _ =>
    (readU32 _ _).bind fun _ => pure _

theorem insertBranchEntry (page : Page) (childIdx : ℕ) (key : κ) (newChild : ℕ) :
    NoDuplicate (fmt.insertBranchEntry page childIdx key newChild) :=
  (collectBranchFlat hread _).bind fun _ => (vecInsert _ _ _).bind fun _ =>
    (vecInsert _ _ _).bind fun _ => (rebuildBranchFlat _ _ _).bind fun _ => pure _

end

theorem readIdxBranchKey (data : List UInt8) (off : ℕ) :
    NoDuplicate (BoogyDb.readIdxBranchKey data off) :=
  (readU16 _ _).bind fun _ => bytesOf _ _ _

theorem findInsertionPoint (page : Page) (rowid : UInt64) :
    NoDuplicate (BoogyDb.findInsertionPoint page rowid) :=
  ite (ok _) (bsearch (fun _ => (rowSlice _ _ _).bind fun _ => (extractId _).bind fun _ => pure _)
    _ _)

theorem extractIdAtVirtualPos (snapshot : Page) (oldCount insertPos : ℕ) (newRow : List UInt8)
    (virtualPos : ℕ) :
    NoDuplicate (BoogyDb.extractIdAtVirtualPos snapshot oldCount insertPos newRow virtualPos) :=
  ite (extractId _) ((rowSlice _ _ _).bind fun _ => extractId _)

theorem findOverflowSplitPoint (snapshot : Page) (oldCount insertPos : ℕ) (newRow : List UInt8)
    (total : ℕ) :
    NoDuplicate (BoogyDb.findOverflowSplitPoint snapshot oldCount insertPos newRow total) :=
  (mapM (fun _ => sourceSize _ _ _) _).bind fun _ => ite (pure _) (pure _)

theorem decodeLeafEntry (page : Page) (i numEntries : ℕ) :
    NoDuplicate (BoogyDb.decodeLeafEntry page i numEntries) :=
  (rowBounds _ _ _).bind fun _ => ite (pure _) ((readU16 _ _).bind fun _ =>
    ite (pure _) ((bytesOf _ _ _).bind fun _ => pure _))

theorem findIdxInsertionPoint (page : Page) (key : List UInt8) :
    NoDuplicate (BoogyDb.findIdxInsertionPoint page key) := by
  refine ite (ok _) ((bsearch (fun _ => (decodeLeafEntry _ _ _).bind fun found => ?_) _ _).bind
    fun _ => pure _)
  cases found with
  | none => exact pure _
  | some k => exact pure _

theorem extractKeyAtVirtualPos (snapshot : Page) (oldCount insertPos : ℕ) (newKey : List UInt8)
    (virtualPos : ℕ) :
    NoDuplicate (BoogyDb.extractKeyAtVirtualPos snapshot oldCount insertPos newKey virtualPos) :=
  ite (ok _) ((decodeLeafEntry _ _ _).bind fun _ => pure _)

section

variable [Crc32Fast]

theorem readPage (file : PageFile) (pageNo : ℕ) : NoDuplicate (file.readPage pageNo) := by
  refine ite (fail nofun) ?_
  split
  · exact ok _
  · unfold PageFile.readPageFromDisk
    split
    · exact fail nofun
    · exact (ite (fail (by rintro _ ⟨⟩)) (ite (fail (by rintro _ ⟨⟩)) (ok _))).bind fun _ => pure _

theorem view (g : WriteGuard) (pageNo : ℕ) : NoDuplicate (g.view pageNo) := by
  unfold WriteGuard.view
  split
  · exact ok _
  · exact readPage _ _

theorem scanPrefix (file : PageFile) (root : ℕ) (pre : List UInt8) :
    NoDuplicate (IndexTreeReader.scanPrefix file root pre) := by
  have hdescend : ∀ fuel p, NoDuplicate (descend
      "index B+ tree depth exceeds maximum in find_leaf_for_key" file.readPage
      (routeKey idxBranch pre) fuel p) := by
    intro fuel
    induction fuel with
    | zero => exact fun _ => fail nofun
    | succ fuel ih =>
        exact fun _ => (readPage _ _).bind fun _ => ite (pure _)
          (((findChild readIdxBranchKey _ _).bind fun _ => pure _).bind fun _ => ih _)
  have hscan : ∀ (page : Page) (idxs : List ℕ) (acc : List (List UInt8) × Bool), NoDuplicate
      (IndexTreeReader.scanLeaf pre (fun acc k => acc ++ [k]) (fun _ => false) page idxs acc) := by
    intro page idxs
    induction idxs with
    | nil => exact fun _ => pure _
    | cons i idxs ih =>
        rintro ⟨acc, foundStart⟩
        refine (decodeLeafEntry _ _ _).bind fun found => ?_
        cases found with
        | none => exact ih _
        | some k => exact ite (ite (pure _) (ih _)) (ite (pure _) (ih _))
  have hwalk : ∀ fuel current (acc : List (List UInt8) × Bool), NoDuplicate (walkLeaves
      "index leaf chain cycle detected in scan_prefix" file.readPage (fun page acc =>
        IndexTreeReader.scanLeaf pre (fun acc k => acc ++ [k]) (fun _ => false) page
          (List.range page.numRows) acc) fuel current acc) := by
    intro fuel
    induction fuel with
    | zero => exact fun _ _ => fail nofun
    | succ fuel ih =>
        exact fun _ _ => (readPage _ _).bind fun _ => (hscan _ _ _).bind fun _ =>
          ite (pure _) (ih _ _)
  exact ((hdescend _ _).bind fun _ => pure _).bind fun _ => (hwalk _ _ _).bind fun _ => pure _

theorem enforceUniqueIndexes (file : PageFile) (state : TableMeta) (bytes : List UInt8) :
    NoDuplicate (Session.enforceUniqueIndexes file state bytes) := by
  refine forM (fun idx => ite ((indexPrefix _ _ _).bind fun pre => ?_) (pure _)) _
  cases pre with
  | none => exact pure _
  | some pre => exact (scanPrefix _ _ _).bind fun _ => ite (pure _) (fail nofun)

theorem enforceUniqueAcid (db : Db) (tx : AcidTransaction) (table : String) (state : TableMeta)
    (bytes : List UInt8) (idx : IndexMeta) :
    NoDuplicate (BoogyDb.enforceUniqueAcid db tx table state bytes idx) := by
  have hpre : NoDuplicate (uniquePrefix state bytes idx) := ite (indexPrefix _ _ _) (ok _)
  refine hpre.bind fun pre => ?_
  cases pre with
  | none => exact pure _
  | some pre => exact (scanPrefix _ _ _).bind fun _ => ite (fail nofun) (ite (fail nofun) (pure _))

end

end NoDuplicate

/-! ## Writes -/

namespace NoDuplicateIn

theorem pure (a : α) : NoDuplicateIn (pure a : StateResult σ α) := fun _ => trivial

theorem throw {e : Fault} (h : e.OtherThanDuplicate) :
    NoDuplicateIn (throw e : StateResult σ α) := fun _ => h

theorem get : NoDuplicateIn (get : StateResult σ σ) := fun _ => trivial

theorem modify (f : σ → σ) : NoDuplicateIn (modify f : StateResult σ Unit) := fun _ => trivial

theorem bind {x : StateResult σ α} {f : α → StateResult σ β} (hx : NoDuplicateIn x)
    (hf : ∀ a, NoDuplicateIn (f a)) : NoDuplicateIn (x >>= f) := fun s =>
  wp_bind.mpr ((hx s).mono (fun a s' _ => hf a s') fun _ _ he => he)

theorem ite {c : Prop} [Decidable c] {x y : StateResult σ α} (hx : NoDuplicateIn x)
    (hy : NoDuplicateIn y) : NoDuplicateIn (if c then x else y) := fun s =>
  wp_ite (fun _ => hx s) fun _ => hy s

theorem lift {x : Result α} (h : NoDuplicate x) :
    NoDuplicateIn (liftM x : StateResult σ α) := by
  intro s
  cases x with
  | ok a => trivial
  | error e => exact h e rfl

theorem lift_bind {x : Result α} {f : α → StateResult σ β} {s : σ} (hx : NoDuplicate x)
    (hf : ∀ a, x = .ok a → NoDuplicateAt (f a) s) :
    NoDuplicateAt ((liftM x : StateResult σ α) >>= f) s := by
  cases x with
  | ok a => exact hf a rfl
  | error e => exact hx e rfl

theorem readOnly {f : σ → Result α} (h : ∀ s, NoDuplicate (f s)) :
    NoDuplicateIn (BoogyDb.readOnly f) := by
  intro s
  show wp _ _ _ _
  rw [wp_readOnly]
  cases hf : f s with
  | ok a => trivial
  | error e => exact h s e hf

section

variable [Crc32Fast]

theorem readPage (pageNo : ℕ) : NoDuplicateIn (WriteGuard.readPage pageNo) :=
  readOnly fun _ => .view _ _

omit [Crc32Fast] in
theorem putPage (pageNo : ℕ) (page : Page) : NoDuplicateIn (WriteGuard.putPage pageNo page) :=
  fun _ => trivial

theorem allocatePage : NoDuplicateIn WriteGuard.allocatePage := by
  intro g
  refine wp_allocatePage (fun _ _ => trivial) fun _ e he id heq => ?_
  rw [heq] at he
  cases he

theorem modifyPage (pageNo : ℕ) {f : Page → Result Page} (hf : ∀ page, NoDuplicate (f page)) :
    NoDuplicateIn (WriteGuard.modifyPage pageNo f) :=
  (readPage _).bind fun _ => (putPage _ _).bind fun _ => (lift (hf _)).bind fun _ => putPage _ _

theorem insertInPlace (pageNo : ℕ) (snapshot : Page) (pos : ℕ) (row : List UInt8) :
    NoDuplicateIn (BoogyDb.insertInPlace pageNo snapshot pos row) :=
  modifyPage _ fun _ => NoDuplicate.bind (.rebuildLeaf _ _ _ _ _ _ _) fun _ => .pure _

theorem splitLeaf {κ : Type} (pageNo : ℕ) (snapshot : Page) (pos : ℕ) (row : List UInt8) (mid : ℕ)
    {separator : Result κ} (h : NoDuplicate separator) :
    NoDuplicateIn (BoogyDb.splitLeaf pageNo snapshot pos row mid separator) := by
  refine allocatePage.bind fun _ => (lift h).bind fun _ => (modifyPage _ fun _ =>
    NoDuplicate.bind (.rebuildLeaf _ _ _ _ _ _ _) fun _ => .pure _).bind fun _ =>
      (lift (.rebuildLeaf _ _ _ _ _ _ _)).bind fun _ => (putPage _ _).bind fun _ => ?_
  exact (ite (modifyPage _ fun _ => .pure _) (pure _)).bind fun _ => pure _

theorem writeOverflowRow (rowData : List UInt8) (maxInline : ℕ) :
    NoDuplicateIn (BoogyDb.writeOverflowRow rowData maxInline) := by
  have hchain : ∀ chunks next, NoDuplicateIn (writeChain chunks next) := by
    intro chunks
    induction chunks with
    | nil => exact fun _ => pure _
    | cons chunk chunks ih =>
        exact fun _ => allocatePage.bind fun _ => (lift (.ite .panic
          (NoDuplicate.bind (.copyFromSlice _ _ _) fun _ => .pure _))).bind fun _ =>
            (putPage _ _).bind fun _ => ih _
  exact (lift (.bytesOf _ _ _)).bind fun _ => (hchain _ _).bind fun _ => pure _

section

variable {κ : Type} {fmt : BranchFormat κ} (hread : ∀ data off, NoDuplicate (fmt.readKey data off))
include hread

theorem insertIntoBranch (pageNo childIdx : ℕ) (separator : κ) (newChild : ℕ) :
    NoDuplicateIn (BoogyDb.insertIntoBranch fmt pageNo childIdx separator newChild) := by
  refine (readPage _).bind fun _ => ite ((modifyPage _ fun _ =>
    (NoDuplicate.insertBranchEntry hread _ _ _ _).bind fun _ => .pure _).bind fun _ => pure _) ?_
  refine (lift (.collectBranchFlat hread _)).bind fun _ => (lift (.vecInsert _ _ _)).bind fun _ =>
    (lift (.vecInsert _ _ _)).bind fun _ => (lift (.index _ _)).bind fun _ => ?_
  exact (modifyPage _ fun _ => NoDuplicate.bind (.rebuildBranchFlat _ _ _) fun _ => .pure _).bind
    fun _ => allocatePage.bind fun _ => (lift (.rebuildBranchFlat _ _ _)).bind fun _ =>
      (putPage _ _).bind fun _ => pure _

omit hread in
theorem growRoot (root : ℕ) (result : InsertResult κ) :
    NoDuplicateIn (BoogyDb.growRoot fmt root result) := by
  cases result with
  | fit => exact pure _
  | split newPage separator =>
      exact allocatePage.bind fun _ => (lift (.writeBranchEntry _ _ _ _)).bind fun _ =>
        (lift (.copyFromSlice _ _ _)).bind fun _ => (putPage _ _).bind fun _ => pure _

end

/-- An insertion into a tree fails with `DuplicateKey` only in the leaf it reaches. -/
theorem insertRecursive {κ : Type} [LinearOrder κ] {fmt : BranchFormat κ}
    (hread : ∀ data off, NoDuplicate (fmt.readKey data off)) {depthError : String} {key : κ}
    {intoLeaf : ℕ → Page → StateResult WriteGuard (InsertResult κ)} {g : WriteGuard} {fuel : ℕ}
    {pageNo : ℕ} (hleaf : ∀ p page,
      descend depthError g.view (routeKey fmt key) fuel pageNo = .ok (p, page) →
      NoDuplicateAt (intoLeaf p page) g) :
    NoDuplicateAt (BoogyDb.insertRecursive fmt depthError key intoLeaf fuel pageNo) g := by
  induction fuel generalizing pageNo with
  | zero => exact fun id h => by cases h
  | succ fuel ih =>
      unfold BoogyDb.insertRecursive
      refine wp_bind.mpr ?_
      rw [WriteGuard.readPage, wp_readOnly]
      cases hview : g.view pageNo with
      | error e => exact NoDuplicate.view g pageNo e hview
      | ok page =>
          have hdescend : ∀ p page', (if page.isLeaf then (.ok (pageNo, page) : Result (ℕ × Page))
              else do
                let child ← routeKey fmt key page
                descend depthError g.view (routeKey fmt key) fuel child) = .ok (p, page') →
              NoDuplicateAt (intoLeaf p page') g := by
            intro p page' h
            refine hleaf p page' ?_
            rw [descend, hview]
            exact h
          dsimp only
          refine wp_ite (fun his => hdescend _ _ (if_pos his)) fun hnot => ?_
          rw [wp_bind]
          cases hchild : fmt.findChild page key with
          | error e => exact NoDuplicate.findChild hread page key e hchild
          | ok r =>
              have hroute : routeKey fmt key page = .ok r.2 := by
                rw [routeKey, hchild]
                rfl
              refine wp_bind.mpr ((ih fun p page' h => hdescend p page' ?_).mono ?_ fun _ _ he => he)
              · rw [if_neg hnot, hroute]
                exact h
              · intro result g' _
                cases result with
                | fit => trivial
                | split newPage separator => exact insertIntoBranch hread _ _ _ _ g'

/-- **A row id that is not there is not rejected**, whatever the row. -/
theorem insertRow {g : WriteGuard} {root : ℕ} {m : UInt64 → Option (List UInt8)} {rowid : UInt64}
    (h : Holds g root m) (hm : m rowid = none) (row : List UInt8) :
    NoDuplicateAt (BTreeWriter.insert root rowid row) g := by
  obtain ⟨leaves, branches, htree, hrep⟩ := h
  obtain ⟨pre, l, post, rfl, hle, hlt, -, hdescend⟩ := htree.tree.descend_key rowid
    "B+ tree depth exceeds maximum in insert_recursive"
  refine wp_bind.mpr ((insertRecursive NoDuplicate.readU64 fun p page hreached => ?_).mono
    (fun _ g' _ => growRoot _ _ g') fun _ _ he => he)
  rw [hdescend] at hreached
  cases hreached
  rcases @findInsertionPoint_found _ _ _ _ rowid _ _ _ _ _ htree.cells (nextPage post 0) (lastPage 0 pre)
    hle hlt with ⟨pos, hpos, hid, hfind⟩ | ⟨pos, hnot, hfind⟩
  · have hmem : (rowid, (l.entries[pos]).2) ∈ contents (pre ++ l :: post) := by
      rw [← hid]
      exact List.mem_flatMap.mpr ⟨l, by simp, List.getElem_mem hpos⟩
    have hrow := (hrep.mem_iff _ _).mp (mem_rowsIn_iff.mpr ⟨_, hmem, rfl⟩)
    rw [hm] at hrow
    cases hrow
  · refine wp_bind.mpr ((wp_lift_ok hfind).mpr (wp_ite (fun hfound => nomatch hfound) fun _ => ?_))
    refine wp_ite (fun _ => ((insertInPlace _ _ _ _).bind fun _ => pure _) g) fun _ =>
      wp_ite (fun _ => ?_) fun _ => splitLeaf _ _ _ _ _ (.extractIdAtVirtualPos _ _ _ _ _) g
    exact ((writeOverflowRow _ _).bind fun _ => ite ((insertInPlace _ _ _ _).bind fun _ => pure _)
      ((lift (.findOverflowSplitPoint _ _ _ _ _)).bind fun _ =>
        splitLeaf _ _ _ _ _ (.extractIdAtVirtualPos _ _ _ _ _))) g

theorem insertKey (root : ℕ) (key : List UInt8) :
    NoDuplicateIn (IndexTreeWriter.insert root key) := fun g =>
  wp_bind.mpr ((insertRecursive NoDuplicate.readIdxBranchKey fun _ _ _ =>
    ((lift (.findIdxInsertionPoint _ _)).bind fun _ =>
      ite ((insertInPlace _ _ _ _).bind fun _ => pure _)
        (splitLeaf _ _ _ _ _ (.extractKeyAtVirtualPos _ _ _ _ _))) g).mono
    (fun _ g' _ => growRoot _ _ g') fun _ _ he => he)

/-! ### Under a table's lock -/

omit [Crc32Fast] in
theorem watch {α : Type} {c : WriteGuard → Prop} {x : StateResult WriteGuard α} {g : WriteGuard}
    (h : NoDuplicateAt x g) : NoDuplicateAt (BoogyDb.watch c x) g := by
  have hx : wp x _ _ g := h
  show wp _ _ _ _
  by_cases hc : c g
  · have heq : BoogyDb.watch c x g = x g := by rw [BoogyDb.watch, if_pos hc]
    rw [wp] at hx ⊢
    rwa [heq]
  · rw [wp, BoogyDb.watch, if_neg hc]
    exact fun id heq => by cases heq

/-- The writers say that a row id is in use only where it is. -/
structure Quiet (w : TreeWriters) : Prop where
  row : ∀ {g root m rowid}, Holds g root m → m rowid = none → ∀ row,
    NoDuplicateAt (w.insertRow root rowid row) g
  key : ∀ root key, NoDuplicateIn (w.insertKey root key)

theorem quiet_code : Quiet .code := ⟨insertRow, insertKey⟩

theorem quiet_watched (storable : UInt64 → List UInt8 → Prop) : Quiet (.watched storable) :=
  ⟨fun h hm row => watch (insertRow h hm row), fun root key g => watch (insertKey root key g)⟩

omit [Crc32Fast] in
theorem inGuard {α : Type} {x : StateResult WriteGuard α} {s : Session}
    (h : NoDuplicateAt x s.file) : NoDuplicateAt (BoogyDb.inGuard x) s :=
  wp_inGuard.mpr h

theorem appendPageImage (tableId : UInt32) (pageNo : ℕ) (page : Page) :
    NoDuplicateIn (Wal.appendPageImage tableId pageNo page) := by
  intro wal
  show wp _ _ _ _
  rw [wp, Wal.appendPageImage]
  by_cases hfull : wal.entryCount = 2 ^ 32 - 1
  · rw [if_pos hfull]
    exact fun id heq => by cases heq
  · by_cases hlast : wal.nextSequence.toNat = 2 ^ 64 - 1
    · rw [if_neg hfull, if_pos hlast]
      exact fun id heq => by cases heq
    · rw [if_neg hfull, if_neg hlast]
      trivial

theorem commitFile {durability : Durability} {tableId : UInt32} {file file' : PageFile}
    {wal wal' : Wal} {e : Fault}
    (h : BoogyDb.commitFile durability tableId file wal = .error (e, file', wal')) :
    e.OtherThanDuplicate := by
  have hcommit : NoDuplicate (WriteGuard.commit file) :=
    .ite .overflowed (NoDuplicate.bind (.foldlM (fun _ _ => .ite (.ok _) .panic) _ _)
      fun _ => .pure _)
  have hlog : ∀ images, NoDuplicateIn (logImages tableId images) := by
    intro images
    induction images with
    | nil => exact pure _
    | cons image images ih => exact (appendPageImage _ _ _).bind fun _ => ih
  unfold BoogyDb.commitFile at h
  cases hrun : WriteGuard.commit file with
  | error e' =>
      rw [hrun] at h
      cases h
      exact hcommit e hrun
  | ok r =>
      rw [hrun] at h
      dsimp only at h
      split at h
      · cases h
      · split at h
        · cases h
        · rename_i hfails
          cases h
          exact (hlog r.1 wal).error hfails

theorem commitWrite : NoDuplicateIn BoogyDb.commitWrite := by
  intro s
  show wp _ _ _ _
  rw [wp, BoogyDb.commitWrite]
  cases hx : BoogyDb.commitFile s.durability s.state.tableId s.file s.wal with
  | ok r => trivial
  | error r => exact commitFile hx

variable {w : TreeWriters}

theorem indexUpdateRow (hw : Quiet w) (rowid : UInt64) (bytes : List UInt8) :
    NoDuplicateIn (Session.indexUpdateRow w rowid bytes false) := by
  have hindex : ∀ (state : TableMeta) (idx : IndexMeta),
      NoDuplicateIn (Session.updateIndex w state idx rowid bytes false) := by
    intro state idx
    refine (lift (.indexKey _ _ _ _)).bind fun key => ?_
    cases key with
    | none => exact pure _
    | some key => exact (hw.key _ _).bind fun _ => pure _
  have hloop : ∀ rest done,
      NoDuplicateIn (Session.indexUpdateLoop w rowid bytes false done rest) := by
    intro rest
    induction rest with
    | nil => exact fun _ => pure _
    | cons idx rest ih =>
        exact fun _ => get.bind fun _ => NoDuplicateIn.bind (fun s => inGuard (hindex _ _ _)) fun _ =>
          NoDuplicateIn.bind (fun _ => trivial) fun _ => ih _
  exact get.bind fun _ => hloop _ _

omit [Crc32Fast] in
theorem modifyState (f : TableMeta → TableMeta) : NoDuplicateIn (BoogyDb.modifyState f) :=
  fun _ => trivial

omit [Crc32Fast] in
theorem countRow : NoDuplicateIn Session.countRow :=
  get.bind fun _ => (lift (.addOne _)).bind fun _ => modifyState _

variable {s : Session} {m : UInt64 → Option (List UInt8)} {rowid : UInt64}

theorem insertRowOf (hw : Quiet w) (h : Holds s.file s.state.rootPage m) (hm : m rowid = none)
    (row : List UInt8) : NoDuplicateAt (Session.insertRow w rowid row) s := by
  refine wp_get_bind.mpr (wp_bind.mpr ((inGuard (hw.row h hm row)).mono (fun _ s' _ => ?_)
    fun _ _ he => he))
  exact ((modifyState _).bind fun _ => (indexUpdateRow hw _ _).bind fun _ => commitWrite) s'

/-- **`insert` of a row does not fail with `DuplicateKey`** when its id is free. -/
theorem insertOf (hw : Quiet w) (h : Holds s.file s.state.rootPage m)
    (hm : m s.state.nextRowid = none) (data : RowData) :
    NoDuplicateAt (Session.insert w data) s := by
  refine wp_get_bind.mpr (lift_bind (.enforceIndexTypes _ _) fun _ _ =>
    lift_bind (.addOne _) fun next _ => ?_)
  refine wp_ite (fun _ id heq => by cases heq) fun _ => ?_
  cases hunique : Session.enforceUniqueIndexes s.file s.state
      (encodeRow s.state.nextRowid (columnValues s.state data)) with
  | ok _ =>
      refine wp_bind.mpr ((@insertRowOf _ w { s with state := { s.state with nextRowid := next } }
        m _ hw h hm _).mono (fun _ s' _ => ?_) fun _ _ he => he)
      exact (countRow.bind fun _ => pure _) s'
  | error e =>
      have hother := NoDuplicate.enforceUniqueIndexes _ _ _ e hunique
      cases e with
      | error e => exact hother
      | panic => exact hother
      | overflow => exact hother
      | unspecified => exact hother

/-! ### In a transaction -/

omit [Crc32Fast] in
theorem withGuard {α : Type} {f : StateResult WriteGuard α} {s : InTransaction}
    (h : NoDuplicateAt f s.guard) : NoDuplicateAt (InTransaction.withGuard f) s := by
  have hf : wp f _ _ s.guard := h
  show wp _ _ _ _
  rw [wp] at hf ⊢
  unfold InTransaction.withGuard
  cases hrun : f s.guard with
  | ok a guard => trivial
  | error e guard =>
      rw [hrun] at hf
      exact hf

theorem enforceUniqueIndexesAcid (tbl : String) (state : TableMeta) (bytes : List UInt8) :
    NoDuplicateIn (InTransaction.enforceUniqueIndexesAcid tbl state bytes) := by
  have hseen : ∀ l : List IndexMeta, NoDuplicateIn (l.filterMapM fun idx => do
      let pre ← (uniquePrefix state bytes idx : Result _)
      Pure.pure (pre.map fun p => (tbl, idx.name, p)) :
        StateResult InTransaction (List (String × String × List UInt8))) := by
    intro l
    induction l with
    | nil => exact pure _
    | cons idx l ih =>
        rw [List.filterMapM_cons]
        refine ((lift (.ite (.indexPrefix _ _ _) (.ok _))).bind fun _ => pure _).bind fun pre => ?_
        cases pre with
        | none => exact ih
        | some pre => exact ih.bind fun _ => pure _
  unfold InTransaction.enforceUniqueIndexesAcid
  refine get.bind fun s => ?_
  rw [forM_lift]
  exact (lift (.forM (fun _ => .enforceUniqueAcid _ _ _ _ _ _) _)).bind fun _ =>
    (hseen _).bind fun _ => modify _

theorem putRow {g : WriteGuard} {root : ℕ} {m : UInt64 → Option (List UInt8)} (hw : Quiet w)
    (h : Holds g root m) (hm : m rowid = none) (row : List UInt8) (infos : List IndexInfo) :
    NoDuplicateAt (BoogyDb.putRow w rowid row root infos) g := by
  have hentries : ∀ infos, NoDuplicateIn (insertEntries w rowid row infos) := by
    intro infos
    induction infos with
    | nil => exact pure _
    | cons info infos ih =>
        refine (lift (.indexValues _ _)).bind fun vals => ?_
        cases encodeCompositeIndexKey vals rowid with
        | some key => exact (hw.key _ _).bind fun _ => ih.bind fun _ => pure _
        | none => exact (pure _).bind fun _ => ih.bind fun _ => pure _
  refine wp_bind.mpr ((hw.row h hm row).mono (fun root g' _ => ?_) fun _ _ he => he)
  exact ((hentries _).bind fun _ => pure _) g'

/-- **An insertion into a transaction does not fail with `DuplicateKey`** when the id is free. -/
theorem insertAs {s : InTransaction} {tbl : String} {state : TableMeta} {freshNext : UInt64}
    {next : Result UInt64} (hw : Quiet w) (h : Holds s.guard (s.tx.currentRoot tbl state) m)
    (hm : m rowid = none) (hnext : NoDuplicate next) (data : RowData) :
    NoDuplicateAt (InTransaction.insertAs w tbl state rowid data freshNext next) s := by
  refine wp_get_bind.mpr (wp_ite (fun _ id heq => by cases heq) fun _ => ?_)
  refine wp_bind.mpr (((within_enforceUniqueIndexesAcid _ s).and
    (enforceUniqueIndexesAcid tbl state _ s)).mono ?_ fun _ _ he => he.2)
  rintro _ s₁ ⟨hrefused, -⟩
  rw [← hrefused.guard_eq] at h
  refine wp_bind.mpr ((withGuard (putRow hw h hm _ _)).mono (fun r s₂ _ => ?_) fun _ _ he => he)
  exact ((lift hnext).bind fun _ => modify _) s₂

end

end NoDuplicateIn

end

end BoogyDb
