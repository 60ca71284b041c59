import BoogyDb.AcidTables
import BoogyDb.DbRuns
import BoogyDb.EncryptedPages
import BoogyDb.SchemaWrites
import BoogyDb.VectorWal

/-!
# Encrypted tables in a transaction

A table can be encrypted under a key of its own.  The engine keeps the cipher with the
table, and keeps a cipher for each page that is to be encrypted when the file is synced.
A transaction copies the cipher of a table into the table's delta.

`commit` logs every page under the cipher of the first delta, and registers every page
for the ciphers of all encrypted deltas in turn, so that the last one stays.  Which table
a page belongs to is not asked.
-/

namespace BoogyDb

open WriteGuard

/-- `Cipher`: AES-256-GCM under a key of 32 bytes. -/
structure Cipher where
  key : List UInt8
  length_key : key.length = 32
deriving DecidableEq

def Cipher.inner (cipher : Cipher) : Aes256Gcm := aes256Gcm cipher.key

/-- A database with encrypted tables. -/
structure EncryptedDb where
  db : Db
  /-- The encrypted tables, each with its cipher when it is unlocked. -/
  tableCiphers : AList fun _ : String => Option Cipher
  /-- The ciphers that pages are registered for. -/
  pageCiphers : AList fun _ : ℕ => Cipher
  nonces : ℕ → Nonce

namespace EncryptedDb

/-- `meta.cipher`. -/
def cipherOf (s : EncryptedDb) (table : String) : Option Cipher :=
  (s.tableCiphers.lookup table).join

/-- What `check_table_accessible` refuses: an encrypted table without its cipher. -/
def Locked (s : EncryptedDb) (table : String) : Prop := s.tableCiphers.lookup table = some none

instance (s : EncryptedDb) (table : String) : Decidable (s.Locked table) :=
  inferInstanceAs (Decidable (_ = _))

/-- Run a call that takes no notice of encryption. -/
def plainly {α : Type} (x : StateResult Db α) : StateResult EncryptedDb α := fun s =>
  match x s.db with
  | .ok a db => .ok a { s with db }
  | .error e db => .error e { s with db }

section

variable [Crc32Fast]

/-- `persist_registry`: a record says whether its table is encrypted. -/
def persistRegistry : StateResult EncryptedDb Unit := do
  let s ← get
  let records := s.db.tables.entries.map fun e =>
    (⟨e.2, (s.tableCiphers.lookup e.1).isSome⟩ : TableRecord)
  plainly (Db.inFile do
    let (page0, overflowPages) ← serializeSystemPage records s.db.nextTableId
    putPage 0 page0
    overflowPages.forM fun p => putPage p.1 p.2)
  plainly (Db.commitWrite 0)

/-- `create_table`, and `create_table_encrypted` under a cipher.  The first batch of pages
is committed in plaintext, since page 0 is one of them. -/
def createTable (name : String) (columns : List ColumnDef) (cipher : Option Cipher) :
    StateResult EncryptedDb Unit := do
  let s ← get
  if (s.db.tables.lookup name).isSome then throw (.error (.tableExists name))
  else
    if s.db.file.pageCount = 0 then discard (plainly (Db.inFile allocatePage)) else pure ()
    let root ← plainly (Db.inFile BTreeWriter.create)
    let nextTableId ← addOne32 s.db.nextTableId
    modify fun s => { s with db.nextTableId := nextTableId }
    plainly (Db.commitWrite s.db.nextTableId)
    modify fun s' => { s' with
      db.tables := s'.db.tables.insert name (TableMeta.new name s.db.nextTableId columns root)
      tableCiphers := match cipher with
        | none => s'.tableCiphers.erase name
        | some cipher => s'.tableCiphers.insert name (some cipher) }
    persistRegistry

end

end EncryptedDb

/-! ## Transactions -/

/-- A transaction and its database; each delta has the cipher its table had when the
delta was made. -/
structure InEncrypted where
  db : EncryptedDb
  tx : AcidTransaction
  deltaCiphers : AList fun _ : String => Option Cipher

namespace InEncrypted

/-- The transaction, with no notice of encryption. -/
def plain (s : InEncrypted) : InTransaction := ⟨s.db.db, s.tx⟩

/-- `begin` of a transaction. -/
def start (db : EncryptedDb) : InEncrypted := ⟨db, .new, ∅⟩

/-- A call on a table.  A locked table is refused, and a delta that the call makes gets
the cipher of the table. -/
def onTable {α : Type} (table : String) (x : StateResult InTransaction α) :
    StateResult InEncrypted α := fun s =>
  let after (t : InTransaction) : InEncrypted :=
    { db := { s.db with db := t.db }
      tx := t.tx
      deltaCiphers :=
        if table ∈ t.tx.metaDeltas ∧ table ∉ s.deltaCiphers then
          s.deltaCiphers.insert table (s.db.cipherOf table)
        else s.deltaCiphers }
  if s.db.Locked table then .error (.error (.tableLocked table)) s
  else
    match x s.plain with
    | .ok a t => .ok a (after t)
    | .error e t => .error e (after t)

/-- `delta.cipher`. -/
def deltaCipher (s : InEncrypted) (table : String) : Option Cipher :=
  (s.deltaCiphers.lookup table).join

/-- The deltas, in the order of the map: a table id and a cipher each. -/
def deltas (s : InEncrypted) : List (UInt32 × Option Cipher) :=
  s.tx.metaDeltas.entries.map fun e => (e.2.tableId, s.deltaCipher e.1)

end InEncrypted

/-- `page_table_map`: the table id and the cipher that a page is logged under. -/
abbrev PageTableMap : Type := AList fun _ : ℕ => UInt32 × Option Cipher

/-- `entry(page_no).or_insert(owner)`. -/
def PageTableMap.orInsert (owner : UInt32 × Option Cipher) (map : PageTableMap) (pageNo : ℕ) :
    PageTableMap :=
  if pageNo ∈ map then map else map.insert pageNo owner

/-- One turn of the loop over the deltas. -/
def claimPages (pages : List ℕ) (st : PageTableMap × AList fun _ : ℕ => Cipher)
    (delta : UInt32 × Option Cipher) : PageTableMap × AList fun _ : ℕ => Cipher :=
  (pages.foldl (PageTableMap.orInsert delta) st.1,
    match delta.2 with
    | none => st.2
    | some cipher => pages.foldl (fun ciphers pageNo => ciphers.insert pageNo cipher) st.2)

/-- A page image as it goes to the log: in plaintext, or under a cipher. -/
structure PageImage where
  tableId : UInt32
  pageNo : ℕ
  cipher : Option Cipher
  page : Page

/-- The images as the map has them. -/
def pageImages (map : PageTableMap) (afterImages : List (ℕ × Page)) : List PageImage :=
  afterImages.map fun image =>
    let owner := (map.lookup image.1).getD (0, none)
    ⟨owner.1, image.1, owner.2, image.2⟩

section

variable [Crc32Fast]

/-- Append the images to the log; each encrypted one draws a nonce. -/
def logPageImages : List PageImage → StateResult (Wal × (ℕ → Nonce)) Unit
  | [] => pure ()
  | image :: images => fun (wal, nonces) =>
      let written : Result (Page × (ℕ → Nonce)) :=
        match image.cipher with
        | none => .ok (image.page, nonces)
        | some cipher => do
            let encrypted ← sealPage cipher.inner (nonces 0).1 image.page
            pure (encrypted, fun i => nonces (i + 1))
      match written with
      | .error e => .error e (wal, nonces)
      | .ok (writeData, nonces) =>
          match Wal.appendPageImage image.tableId image.pageNo writeData wal with
          | .error e wal => .error e (wal, nonces)
          | .ok _ wal => logPageImages images (wal, nonces)

namespace InEncrypted

/-- The overlay with the transaction's pages, which is what `commit` publishes. -/
def guard (s : InEncrypted) : WriteGuard := s.tx.enter s.db.db.file

/-- There is nothing to commit. -/
def Nothing (s : InEncrypted) : Prop :=
  s.tx.privateDirty.entries.isEmpty && s.tx.metaDeltas.entries.isEmpty

instance (s : InEncrypted) : Decidable s.Nothing := inferInstanceAs (Decidable (_ = true))

/-- The after-images of the commit. -/
def published (s : InEncrypted) : List (ℕ × Page) :=
  if s.Nothing then [] else s.guard.writeState.dirty.entries.map fun e => (e.1, e.2)

/-- What the loop over the deltas makes of the after-images. -/
def claimed (s : InEncrypted) : PageTableMap × AList fun _ : ℕ => Cipher :=
  s.deltas.foldl (claimPages (s.published.map Prod.fst)) (∅, s.db.pageCiphers)

/-- The images that the commit appends to the log. -/
def logged (s : InEncrypted) : List PageImage :=
  if s.db.db.durability = .none then [] else pageImages s.claimed.1 s.published

/-- `commit`: publish the pages, log them, apply the deltas. -/
def commit : StateResult InEncrypted Unit := fun s =>
  if s.Nothing then .ok () s
  else
    match WriteGuard.commit s.guard with
    | .error e => .error e (start { s.db with db.file := s.guard })
    | .ok (_, file) =>
        let db := { s.db with db.file := file, pageCiphers := s.claimed.2 }
        match logPageImages s.logged (s.db.db.wal, s.db.nonces) with
        | .error e (wal, nonces) => .error e (start { db with db.wal := wal, nonces })
        | .ok _ (wal, nonces) =>
            .ok () (start { db with db.wal := wal, db.tables := s.plain.seenTables, nonces })

end InEncrypted

end

/-! ## The pages of a table -/

section

variable {κ : Type}

/-- The pages of a tree: those reached from its root over children. -/
inductive TreePage (fmt : BranchFormat κ) (v : ℕ → Result Page) (root : ℕ) : ℕ → Prop
  | root : TreePage fmt v root root
  | child {pageNo child idx : ℕ} {page : Page} (htree : TreePage fmt v root pageNo)
      (hview : v pageNo = .ok page) (hbranch : page.isBranch = true) (hidx : idx ≤ page.numRows)
      (hchild : fmt.getBranchChild page idx = .ok child) : TreePage fmt v root child

end

/-- The pages of a chain of overflow pages. -/
inductive ChainPage (v : ℕ → Result Page) (first : ℕ) : ℕ → Prop
  | first : ChainPage v first first
  | next {pageNo : ℕ} {page : Page} (hchain : ChainPage v first pageNo)
      (hview : v pageNo = .ok page) (hnext : page.overflowNext ≠ 0) :
      ChainPage v first page.overflowNext

/-- The pages of a table's trees, with the chains that hold its long rows. -/
inductive TablePage (v : ℕ → Result Page) (state : TableMeta) : ℕ → Prop
  | rows {pageNo : ℕ} (htree : TreePage rowBranch v state.rootPage pageNo) :
      TablePage v state pageNo
  | index {idx : IndexMeta} {pageNo : ℕ} (hidx : idx ∈ state.indexes)
      (htree : TreePage idxBranch v idx.rootPage pageNo) : TablePage v state pageNo
  | long {leaf i start stop inlineLen first remaining pageNo : ℕ} {page : Page}
      {cell : List UInt8} (htree : TreePage rowBranch v state.rootPage leaf)
      (hview : v leaf = .ok page) (hleaf : page.isLeaf = true) (hrow : i < page.numRows)
      (hbounds : rowBounds page i page.numRows = .ok (start, stop))
      (hcell : bytesOf page.data start stop = .ok cell) (hlong : hasOverflow cell = true)
      (htrailer : decodeOverflowTrailer cell = .ok (inlineLen, first, remaining))
      (hchain : ChainPage v first pageNo) : TablePage v state pageNo

namespace InEncrypted

variable [Crc32Fast]

/-- The cipher a page of the database has to be under, as the transaction sees the tables:
page 0 and the pages of a table that is not encrypted are plain. -/
inductive Needs (s : InEncrypted) (pageNo : ℕ) : Option Cipher → Prop
  | system (hzero : pageNo = 0) : Needs s pageNo none
  | table {table : String} {state : TableMeta}
      (hstate : s.plain.seenTables.lookup table = some state) (hopen : ¬ s.db.Locked table)
      (hpage : TablePage s.guard.view state pageNo) : Needs s pageNo (s.db.cipherOf table)

/-- Every page that was published is logged under the cipher it needs, and registered for
it. -/
def EncryptsEachPage (s s' : InEncrypted) : Prop :=
  ∀ pageNo ∈ s.published.map Prod.fst, ∀ cipher, s.Needs pageNo cipher →
    (∀ image ∈ s.logged, image.pageNo = pageNo → image.cipher = cipher) ∧
      s'.db.pageCiphers.lookup pageNo = cipher

end InEncrypted

/-! ## The loop over the deltas -/

section

variable {pages : List ℕ} {pageNo : ℕ}

theorem lookup_orInsert (owner : UInt32 × Option Cipher) (map : PageTableMap) (p : ℕ) :
    (map.orInsert owner p).lookup pageNo =
      (map.lookup pageNo).or (if pageNo = p then some owner else none) := by
  unfold PageTableMap.orInsert
  by_cases hp : p ∈ map
  · rw [if_pos hp]
    by_cases h : pageNo = p
    · subst h
      obtain ⟨found, hfound⟩ := Option.isSome_iff_exists.mp (AList.lookup_isSome.mpr hp)
      rw [hfound]
      rfl
    · rw [if_neg h, Option.or_none]
  · rw [if_neg hp]
    by_cases h : pageNo = p
    · subst h
      rw [AList.lookup_insert, AList.lookup_eq_none.mpr hp, if_pos rfl]
      rfl
    · rw [AList.lookup_insert_ne h, if_neg h, Option.or_none]

/-- A page stays with the first that claimed it. -/
theorem lookup_foldl_orInsert (hpage : pageNo ∈ pages) (owner : UInt32 × Option Cipher)
    (map : PageTableMap) :
    (pages.foldl (PageTableMap.orInsert owner) map).lookup pageNo =
      (map.lookup pageNo).or (some owner) := by
  have hkeep : ∀ (pages : List ℕ) (map : PageTableMap) (found : UInt32 × Option Cipher),
      map.lookup pageNo = some found →
        (pages.foldl (PageTableMap.orInsert owner) map).lookup pageNo = some found := by
    intro pages
    induction pages with
    | nil => exact fun _ _ h => h
    | cons p pages ih =>
        intro map found h
        refine ih _ found ?_
        rw [lookup_orInsert, h]
        rfl
  induction pages generalizing map with
  | nil => cases hpage
  | cons p pages ih =>
      rw [List.foldl_cons]
      by_cases h : pageNo = p
      · cases hfound : map.lookup pageNo with
        | none =>
            refine hkeep _ _ owner ?_
            rw [lookup_orInsert, hfound, if_pos h]
            rfl
        | some found =>
            refine hkeep _ _ found ?_
            rw [lookup_orInsert, hfound]
            rfl
      · rw [ih ((List.mem_cons.mp hpage).resolve_left h), lookup_orInsert, if_neg h, Option.or_none]

/-- Registering again replaces the cipher of a page. -/
theorem lookup_foldl_insert (hpage : pageNo ∈ pages) (cipher : Cipher)
    (ciphers : AList fun _ : ℕ => Cipher) :
    (pages.foldl (fun ciphers p => ciphers.insert p cipher) ciphers).lookup pageNo =
      some cipher := by
  have hkeep : ∀ (pages : List ℕ) (ciphers : AList fun _ : ℕ => Cipher),
      ciphers.lookup pageNo = some cipher →
        (pages.foldl (fun ciphers p => ciphers.insert p cipher) ciphers).lookup pageNo =
          some cipher := by
    intro pages
    induction pages with
    | nil => exact fun _ h => h
    | cons p pages ih =>
        intro ciphers h
        refine ih _ ?_
        by_cases hp : pageNo = p
        · subst hp
          exact AList.lookup_insert _
        · rw [AList.lookup_insert_ne hp, h]
  induction pages generalizing ciphers with
  | nil => cases hpage
  | cons p pages ih =>
      by_cases h : pageNo = p
      · subst h
        exact hkeep pages (ciphers.insert pageNo cipher) (AList.lookup_insert _)
      · exact ih ((List.mem_cons.mp hpage).resolve_left h) _

/-- **The first delta claims the pages, and the last encrypted one registers them.** -/
theorem lookup_foldl_claimPages (hpage : pageNo ∈ pages)
    (deltas : List (UInt32 × Option Cipher)) (st : PageTableMap × AList fun _ : ℕ => Cipher) :
    (deltas.foldl (claimPages pages) st).1.lookup pageNo =
        (st.1.lookup pageNo).or deltas.head? ∧
      (deltas.foldl (claimPages pages) st).2.lookup pageNo =
        (deltas.filterMap Prod.snd).getLast?.or (st.2.lookup pageNo) := by
  induction deltas generalizing st with
  | nil => exact ⟨Option.or_none.symm, rfl⟩
  | cons delta deltas ih =>
      obtain ⟨hclaim, hregister⟩ := ih (claimPages pages st delta)
      constructor
      · rw [List.foldl_cons, hclaim, claimPages, lookup_foldl_orInsert hpage]
        cases st.1.lookup pageNo with
        | none => rfl
        | some found => rfl
      · rw [List.foldl_cons, hregister, claimPages]
        obtain ⟨tableId, cipher⟩ := delta
        cases cipher with
        | none => rfl
        | some cipher =>
            have hsnd : ((tableId, some cipher) :: deltas).filterMap Prod.snd =
                cipher :: deltas.filterMap Prod.snd := rfl
            dsimp only
            rw [hsnd, List.getLast?_cons, lookup_foldl_insert hpage]
            cases (deltas.filterMap Prod.snd).getLast? with
            | none => rfl
            | some last => rfl

end

/-! ## What a commit does -/

namespace InEncrypted

variable [Crc32Fast] {s s' : InEncrypted} {pageNo : ℕ}

/-- The cipher of the first delta. -/
def firstCipher (s : InEncrypted) : Option Cipher := (s.deltas.head?.map Prod.snd).join

/-- The cipher of the last delta that has one. -/
def lastCipher (s : InEncrypted) : Option Cipher := (s.deltas.filterMap Prod.snd).getLast?

/-- Every page that is published needs the cipher of the first delta, if there is a log,
and needs the cipher of the last encrypted delta; with no such delta, it needs the one it
was registered for before. -/
def UnderOneCipher (s : InEncrypted) : Prop :=
  ∀ pageNo ∈ s.published.map Prod.fst, ∀ cipher, s.Needs pageNo cipher →
    (s.db.db.durability ≠ .none → s.firstCipher = cipher) ∧
      s.lastCipher.or (s.db.pageCiphers.lookup pageNo) = cipher

/-- The tables of the transaction are those of the database afterwards. -/
theorem commit_eq (h : commit s = .ok () s') : s' = s ∧ s.Nothing ∨
    ¬ s.Nothing ∧ (∃ afterImages, WriteGuard.commit s.guard = .ok (afterImages, s'.db.db.file)) ∧
      s'.db.pageCiphers = s.claimed.2 ∧ s'.db.db.tables = s.plain.seenTables ∧
      logPageImages s.logged (s.db.db.wal, s.db.nonces) = .ok () (s'.db.db.wal, s'.db.nonces) := by
  unfold commit at h
  by_cases hnothing : s.Nothing
  · rw [if_pos hnothing] at h
    cases h
    exact Or.inl ⟨rfl, hnothing⟩
  · rw [if_neg hnothing] at h
    right
    refine ⟨hnothing, ?_⟩
    cases hcommit : WriteGuard.commit s.guard with
    | error e =>
        rw [hcommit] at h
        cases h
    | ok res =>
        obtain ⟨afterImages, file⟩ := res
        rw [hcommit] at h
        dsimp only at h
        cases hlog : logPageImages s.logged (s.db.db.wal, s.db.nonces) with
        | error e t =>
            rw [hlog] at h
            cases h
        | ok u t =>
            rw [hlog] at h
            cases h
            exact ⟨⟨afterImages, rfl⟩, rfl, rfl, rfl⟩

omit [Crc32Fast] in
theorem published_nothing (h : s.Nothing) : s.published = [] := if_pos h

omit [Crc32Fast] in
theorem registered_of_published (hpage : pageNo ∈ s.published.map Prod.fst) :
    s.claimed.2.lookup pageNo = s.lastCipher.or (s.db.pageCiphers.lookup pageNo) :=
  (lookup_foldl_claimPages hpage s.deltas _).2

omit [Crc32Fast] in
theorem claimed_of_published (hpage : pageNo ∈ s.published.map Prod.fst) :
    s.claimed.1.lookup pageNo = s.deltas.head? :=
  (lookup_foldl_claimPages hpage s.deltas _).1

omit [Crc32Fast] in
/-- A page is logged under the cipher of the first delta. -/
theorem logged_iff (hpage : pageNo ∈ s.published.map Prod.fst) (cipher : Option Cipher) :
    (∀ image ∈ s.logged, image.pageNo = pageNo → image.cipher = cipher) ↔
      (s.db.db.durability ≠ .none → s.firstCipher = cipher) := by
  have howner : ((s.claimed.1.lookup pageNo).getD (0, none)).2 = s.firstCipher := by
    rw [claimed_of_published hpage, firstCipher]
    cases s.deltas.head? with
    | none => rfl
    | some delta => rfl
  unfold logged
  by_cases hnone : s.db.db.durability = .none
  · rw [if_pos hnone]
    exact ⟨fun _ h => absurd hnone h, fun _ _ h => absurd h List.not_mem_nil⟩
  · rw [if_neg hnone]
    constructor
    · intro h _
      obtain ⟨image, himage, rfl⟩ := List.mem_map.mp hpage
      rw [← howner]
      exact h _ (List.mem_map.mpr ⟨image, himage, rfl⟩) rfl
    · intro h image himage heq
      obtain ⟨published, _, rfl⟩ := List.mem_map.mp himage
      rw [← h hnone, ← howner, ← heq]

/-- **A commit puts every page under the cipher it needs if and only if all of the pages
need one cipher, the one of the deltas.** -/
theorem commit_encrypts_iff (h : commit s = .ok () s') :
    EncryptsEachPage s s' ↔ s.UnderOneCipher := by
  have hregistered : ∀ pageNo ∈ s.published.map Prod.fst, s'.db.pageCiphers.lookup pageNo =
      s.lastCipher.or (s.db.pageCiphers.lookup pageNo) := by
    intro pageNo hpage
    rcases commit_eq h with ⟨-, hnothing⟩ | ⟨-, -, hciphers, -⟩
    · rw [published_nothing hnothing] at hpage
      exact absurd hpage List.not_mem_nil
    · rw [hciphers, registered_of_published hpage]
  unfold EncryptsEachPage UnderOneCipher
  refine forall₂_congr fun pageNo hpage => forall₂_congr fun cipher _ => ?_
  rw [logged_iff hpage, hregistered pageNo hpage]

end InEncrypted

/-! ## A transaction on a plain and an encrypted table -/

section

variable [Crc32Fast]

/-- The log takes images as long as its counters have room. -/
theorem logPageImages_ok {images : List PageImage} {wal : Wal} {nonces : ℕ → Nonce}
    (hcount : wal.entryCount + images.length < 2 ^ 32)
    (hseq : wal.nextSequence.toNat + images.length < 2 ^ 64) :
    ∃ t, logPageImages images (wal, nonces) = .ok () t := by
  induction images generalizing wal nonces with
  | nil => exact ⟨_, rfl⟩
  | cons image images ih =>
      rw [List.length_cons] at hcount hseq
      have happend : ∀ writeData, ∃ seq wal', Wal.appendPageImage image.tableId image.pageNo
          writeData wal = .ok seq wal' ∧ wal'.entryCount = wal.entryCount + 1 ∧
            wal'.nextSequence = wal.nextSequence + 1 := by
        intro writeData
        have hfull : ¬ wal.entryCount = 2 ^ 32 - 1 := by omega
        have hlast : ¬ wal.nextSequence.toNat = 2 ^ 64 - 1 := by omega
        unfold Wal.appendPageImage
        rw [if_neg hfull, if_neg hlast]
        exact ⟨_, _, rfl, rfl, rfl⟩
      have hnext : (wal.nextSequence + 1).toNat = wal.nextSequence.toNat + 1 := by
        rw [UInt64.toNat_add]
        exact Nat.mod_eq_of_lt (by change _ + 1 < _; omega)
      have hrest : ∀ (writeData : Page) (nonces' : ℕ → Nonce), ∃ t,
          (match Wal.appendPageImage image.tableId image.pageNo writeData wal with
            | .error e wal => .error e (wal, nonces')
            | .ok _ wal => logPageImages images (wal, nonces') :
              EStateM.Result Fault (Wal × (ℕ → Nonce)) Unit) = .ok () t := by
        intro writeData nonces'
        obtain ⟨seq, wal', hwal, hcount', hseq'⟩ := happend writeData
        rw [hwal]
        refine ih ?_ ?_
        · omega
        · rw [hseq', hnext]
          omega
      unfold logPageImages
      dsimp only
      cases image.cipher with
      | none => exact hrest _ _
      | some cipher =>
          obtain ⟨raw, hseal, -⟩ := decryptPage_sealPage (nonces 0).2 image.page
          dsimp only
          rw [hseal]
          exact hrest _ _

namespace InEncrypted

/-- A commit that can publish its pages returns, as long as the log has room. -/
theorem commit_returns {s : InEncrypted}
    (hpublish : (WriteGuard.commit s.guard).toOption.isSome = true)
    (hcount : s.db.db.wal.entryCount + s.logged.length < 2 ^ 32)
    (hseq : s.db.db.wal.nextSequence.toNat + s.logged.length < 2 ^ 64) :
    ∃ s', commit s = .ok () s' := by
  unfold commit
  by_cases hnothing : s.Nothing
  · exact ⟨s, if_pos hnothing⟩
  · have hreturns : ∃ t, logPageImages s.logged (s.db.db.wal, s.db.nonces) = .ok () t :=
      logPageImages_ok hcount hseq
    obtain ⟨⟨wal, nonces⟩, hlog⟩ := hreturns
    rw [if_neg hnothing]
    cases hcommit : WriteGuard.commit s.guard with
    | error e =>
        rw [hcommit] at hpublish
        cases hpublish
    | ok res =>
        dsimp only
        rw [hlog]
        exact ⟨_, rfl⟩

end InEncrypted

end

/-- A cipher with a fixed key. -/
def vaultCipher : Cipher := ⟨List.replicate 32 7, rfl⟩

/-- One column. -/
def boolColumn : ColumnDef := ⟨"flag", .boolean, true, false, none, false⟩

/-- Create a plain and an encrypted table. -/
def createBoth [Crc32Fast] : StateResult EncryptedDb Unit := do
  EncryptedDb.createTable "notes" [boolColumn] none
  EncryptedDb.createTable "vault" [boolColumn] (some vaultCipher)

/-- A new database in ACID mode. -/
def newEncrypted : EncryptedDb :=
  ⟨{ newDb with acid := true }, ∅, ∅, fun _ => ⟨List.replicate nonceSize 0, rfl⟩⟩

/-- A row into a table. -/
def insertFlagInto [Crc32Fast] (table : String) : StateResult InEncrypted UInt64 :=
  InEncrypted.onTable table (InTransaction.insert .code table [("flag", .boolean true)])

/-- A row into each of the tables. -/
def insertBoth [Crc32Fast] : StateResult InEncrypted UInt64 := do
  let _ ← insertFlagInto "vault"
  insertFlagInto "notes"

/-- A transaction on both tables. -/
def bothTables [Crc32Fast] : InEncrypted :=
  stateAfter insertBoth (.start (stateAfter createBoth newEncrypted))

/-- A transaction where the encrypted table is the only one. -/
def vaultAlone [Crc32Fast] : InEncrypted :=
  stateAfter (insertFlagInto "vault") (.start (stateAfter
    (EncryptedDb.createTable "vault" [boolColumn] (some vaultCipher)) newEncrypted))

/-- **Not every commit encrypts each page as it needs**: the page of `notes` is registered
for the cipher of `vault`. -/
theorem not_commit_encrypts_each_page : letI := crc32Ieee
    (∃ u, createBoth newEncrypted = .ok u (stateAfter createBoth newEncrypted)) ∧
      (∃ rowid, insertBoth (.start (stateAfter createBoth newEncrypted)) =
        .ok rowid bothTables) ∧
      ∃ s', InEncrypted.commit bothTables = .ok () s' ∧
        ¬ InEncrypted.EncryptsEachPage bothTables s' := by
  let := crc32Ieee
  refine ⟨exists_of_attempt (by decide +kernel), exists_of_attempt (by decide +kernel), ?_⟩
  obtain ⟨hpublish, hcount, hseq, hroot, hplain, hpage, hlast⟩ :
      (WriteGuard.commit bothTables.guard).toOption.isSome = true ∧
      bothTables.db.db.wal.entryCount + bothTables.logged.length < 2 ^ 32 ∧
      bothTables.db.db.wal.nextSequence.toNat + bothTables.logged.length < 2 ^ 64 ∧
      (bothTables.plain.seenTables.lookup "notes").map TableMeta.rootPage = some 1 ∧
      bothTables.db.tableCiphers.lookup "notes" = none ∧
      1 ∈ bothTables.published.map Prod.fst ∧
      bothTables.claimed.2.lookup 1 = some vaultCipher := by
    decide +kernel
  obtain ⟨s', hs'⟩ := InEncrypted.commit_returns hpublish hcount hseq
  refine ⟨s', hs', fun h => ?_⟩
  obtain ⟨state, hstate, hroot⟩ := Option.map_eq_some_iff.mp hroot
  have hneeds : bothTables.Needs 1 (bothTables.db.cipherOf "notes") := by
    refine .table hstate ?_ (.rows ?_)
    · unfold EncryptedDb.Locked
      rw [hplain]
      exact fun h => nomatch h
    · rw [hroot]
      exact .root
  have hregistered := (h 1 hpage _ hneeds).2
  rcases InEncrypted.commit_eq hs' with ⟨-, hnothing⟩ | ⟨-, -, hciphers, -⟩
  · rw [InEncrypted.published_nothing hnothing] at hpage
    exact absurd hpage List.not_mem_nil
  · rw [hciphers, hlast, EncryptedDb.cipherOf, hplain] at hregistered
    cases hregistered

/-- The row of a table that is alone is logged and registered under the table's cipher. -/
theorem commit_encrypts_vault : letI := crc32Ieee
    ∃ s', InEncrypted.commit vaultAlone = .ok () s' ∧
      InEncrypted.EncryptsEachPage vaultAlone s' := by
  let := crc32Ieee
  obtain ⟨hpublish, hcount, hseq, hpages, htables, hcipher, hfirst, hlast⟩ :
      (WriteGuard.commit vaultAlone.guard).toOption.isSome = true ∧
      vaultAlone.db.db.wal.entryCount + vaultAlone.logged.length < 2 ^ 32 ∧
      vaultAlone.db.db.wal.nextSequence.toNat + vaultAlone.logged.length < 2 ^ 64 ∧
      vaultAlone.published.map Prod.fst = [1] ∧
      vaultAlone.plain.seenTables.keys = ["vault"] ∧
      vaultAlone.db.cipherOf "vault" = some vaultCipher ∧
      vaultAlone.firstCipher = some vaultCipher ∧
      vaultAlone.lastCipher = some vaultCipher := by
    decide +kernel
  obtain ⟨s', hs'⟩ := InEncrypted.commit_returns hpublish hcount hseq
  refine ⟨s', hs', (InEncrypted.commit_encrypts_iff hs').mpr fun pageNo hpage cipher hneeds => ?_⟩
  rw [hpages, List.mem_singleton] at hpage
  rw [hfirst, hlast, Option.some_or]
  cases hneeds with
  | system hzero =>
      rw [hpage] at hzero
      cases hzero
  | @table table state hstate hopen htable =>
      have hmem : table ∈ vaultAlone.plain.seenTables := by
        rw [← AList.lookup_isSome, hstate]
        rfl
      have hname := AList.mem_keys.mp hmem
      rw [htables, List.mem_singleton] at hname
      rw [hname, hcipher]
      exact ⟨fun _ => rfl, rfl⟩

end BoogyDb
