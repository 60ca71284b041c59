import BoogyDb.ColumnNames
import BoogyDb.DbSteps
import BoogyDb.Overlay
import BoogyDb.RecoverySteps
import BoogyDb.RegistryRoundTrip
import BoogyDb.SealedPages
import BoogyDb.TableContents

/-!
# Closing a database and opening it again

`Drop` writes the registry, flushes the cache and empties the log.  If the registry fits and
the log has its header (`Db.Closable`), a further `open` finds the same tables with the same
contents (`DbInv.opensAgain`).

* What is published is on the disk after the flush, and is read back if it passes validation.
* The registry of the last commit is read from these pages (`registry_reads_back_iff`).
* A table is built anew from its record, and its maps are those it had (`InStep.rebuilt`).
-/

namespace BoogyDb

open Bytes Wp WriteGuard FencedTree Ownership RedoLog PageFile

section

variable [Crc32Fast] {file : PageFile} {p : ℕ} {page : Page}

/-! ## The flush -/

omit [Crc32Fast] in
theorem image_cached_of_slot {pages : List (Option Page)} (h : pages[p]?.join = some page) :
    RedoLog.image (cached pages) p = some page := by
  cases himage : RedoLog.image (cached pages) p with
  | none =>
      have hmem : p ∈ (cached pages).map Prod.fst :=
        List.mem_map.mpr ⟨(p, page), mem_cached.mpr h, rfl⟩
      exact absurd hmem (image_eq_none_iff.mp himage)
  | some page' =>
      have hslot := mem_cached.mp (mem_of_image himage)
      exact hslot.symm.trans h

omit [Crc32Fast] in
theorem image_cached_of_empty {pages : List (Option Page)} (h : pages[p]?.join = none) :
    RedoLog.image (cached pages) p = none := by
  apply image_eq_none_iff.mpr
  intro hmem
  obtain ⟨⟨q, page⟩, hpage, rfl⟩ := List.mem_map.mp hmem
  rw [mem_cached.mp hpage] at h
  cases h

theorem readPageFromDisk_eq_ok {disk : List Page} :
    readPageFromDisk disk p = .ok page ↔ disk[p]? = some page ∧ Sealed page := by
  unfold readPageFromDisk
  cases disk[p]? with
  | none => simp [fail]
  | some page' =>
      constructor
      · intro h
        obtain ⟨u, hvalid, hret⟩ := bind_eq_ok.mp h
        cases hret
        exact ⟨rfl, hvalid⟩
      · rintro ⟨heq, hsealed⟩
        obtain rfl := Option.some.inj heq
        show (page'.validate >>= fun _ => pure page') = _
        rw [hsealed]
        rfl

theorem readPage_open {disk : List Page} (hdisk : disk[p]? = some page) (hsealed : Sealed page) :
    (PageFile.open disk).readPage p = .ok page := by
  have hlt : p < disk.length := (List.getElem?_eq_some_iff.mp hdisk).1
  have hnum : ¬ (PageFile.open disk).numPages ≤ p := Nat.not_le.mpr hlt
  rw [PageFile.readPage, if_neg hnum, open_pages]
  exact readPageFromDisk_eq_ok.mpr ⟨hdisk, hsealed⟩

/-- **What could be read and passes validation is read after the flush.** -/
theorem readPage_synced (hread : file.readPage p = .ok page) (hsealed : Sealed page) :
    (PageFile.open file.syncAll.disk).readPage p = .ok page := by
  refine readPage_open ?_ hsealed
  rw [syncAll_disk]
  rw [PageFile.readPage] at hread
  by_cases hnum : file.numPages ≤ p
  · rw [if_pos hnum] at hread
    cases hread
  rw [if_neg hnum] at hread
  cases hslot : file.pages[p]?.join with
  | some page' =>
      rw [hslot] at hread
      cases hread
      exact getElem?_redo_of_image _ _ (image_cached_of_slot hslot)
  | none =>
      rw [hslot] at hread
      have hdisk := (readPageFromDisk_eq_ok.mp hread).1
      rw [getElem?_redo_of_none _ (image_cached_of_empty hslot)
        (List.getElem?_eq_some_iff.mp hdisk).1, hdisk]

theorem copies_synced (hclean : file.writeState = ⟨∅, 0⟩) :
    Copies Sealed file (PageFile.open file.syncAll.disk) := by
  intro p page hview hsealed
  rw [view_eq_some, view_eq_readPage hclean] at hview
  rw [view_eq_some, view_eq_readPage rfl]
  exact readPage_synced hview hsealed

/-! ## Publishing the registry -/

/-- Pages are put into the overlay. -/
def putPages (pages : List (ℕ × Page)) (g : WriteGuard) : WriteGuard :=
  pages.foldl (fun g p => { g with writeState.dirty := g.writeState.dirty.insert p.1 p.2 }) g

theorem putPages_view {pages : List (ℕ × Page)} {g : WriteGuard}
    (hnodup : (pages.map Prod.fst).Nodup) :
    (∀ e ∈ pages, (putPages pages g).view e.1 = .ok e.2) ∧
      ∀ q ∉ pages.map Prod.fst, (putPages pages g).view q = g.view q := by
  induction pages generalizing g with
  | nil => exact ⟨nofun, fun _ _ => rfl⟩
  | cons e pages ih =>
      rw [List.map_cons, List.nodup_cons] at hnodup
      obtain ⟨hin, hout⟩ := @ih { g with writeState.dirty := g.writeState.dirty.insert e.1 e.2 }
        hnodup.2
      have hput := view_insert g g.writeState.newPageCount e.1 e.2
      constructor
      · intro e' he'
        rcases List.mem_cons.mp he' with rfl | he'
        · calc (putPages (e' :: pages) g).view e'.1
              = view { g with writeState.dirty := g.writeState.dirty.insert e'.1 e'.2 } e'.1 :=
                hout e'.1 hnodup.1
            _ = .ok e'.2 := by
                rw [hput, Function.update_self]
        · exact hin e' he'
      · intro q hq
        rw [List.map_cons, List.mem_cons, not_or] at hq
        calc (putPages (e :: pages) g).view q
            = view { g with writeState.dirty := g.writeState.dirty.insert e.1 e.2 } q :=
              hout q hq.2
          _ = g.view q := by
              rw [hput, Function.update_of_ne hq.1]

omit [Crc32Fast] in
theorem putPages_bound (pages : List (ℕ × Page)) (g : WriteGuard) :
    (putPages pages g).bound = g.bound := by
  induction pages generalizing g with
  | nil => rfl
  | cons e pages ih => exact ih _

omit [Crc32Fast] in
theorem putPages_dirty {pages : List (ℕ × Page)} {g : WriteGuard} {q : ℕ}
    (hq : q ∈ (putPages pages g).writeState.dirty) :
    q ∈ pages.map Prod.fst ∨ q ∈ g.writeState.dirty := by
  induction pages generalizing g with
  | nil => exact .inr hq
  | cons e pages ih =>
      rw [List.map_cons, List.mem_cons]
      rcases ih hq with hmem | hdirty
      · exact .inl (.inr hmem)
      · rcases (AList.mem_insert _).mp hdirty with heq | hdirty
        · exact .inl (.inl heq)
        · exact .inr hdirty

theorem nodup_registryChain (n : ℕ) (chunks : List (List UInt8)) :
    ((registryChain n chunks).map Prod.fst).Nodup := by
  induction chunks generalizing n with
  | nil => exact List.nodup_nil
  | cons chunk chunks ih =>
      rw [registryChain, List.map_cons, List.nodup_cons]
      refine ⟨fun hmem => ?_, ih (n + 1)⟩
      obtain ⟨e, he, heq⟩ := List.mem_map.mp hmem
      have hbound := (registryChain_bounds e he).1
      omega

theorem sealed_registryChain {n : ℕ} {chunks : List (List UInt8)} :
    ∀ e ∈ registryChain n chunks, Sealed e.2 := by
  induction chunks generalizing n with
  | nil => exact nofun
  | cons chunk chunks ih =>
      intro e he
      rcases List.mem_cons.mp he with rfl | he
      · exact sealed_pageOf rfl
      · exact ih e he

theorem wlp_allocate_bound {γ : Type} (l : List γ) {g : WriteGuard} :
    wlp (l.mapM fun _ => allocatePage) (fun _ g' => g'.bound = g.bound + l.length ∧
      (DirtyBelow g → DirtyBelow g')) g := by
  induction l generalizing g with
  | nil => exact ⟨rfl, id⟩
  | cons a l ih =>
      rw [List.mapM_cons]
      refine wp.bind (wp_allocatePage (E := fun _ _ => True) (Q := fun _ g₁ => Allocates g g₁)
        (fun g₁ halloc => halloc) fun _ _ _ => trivial) fun _ g₁ halloc => ?_
      refine wp.bind ih fun _ g₂ h₂ => ?_
      obtain ⟨hbound, hdirty⟩ := h₂
      refine ⟨?_, fun h => hdirty (halloc.dirtyBelow h)⟩
      rw [hbound, halloc.bound, List.length_cons]
      omega

section

variable {records : List TableRecord} {next : UInt32} {g : WriteGuard}

omit [Crc32Fast] in
theorem registryChunks_short (h : (serializeSystemMetas records next).length ≤ systemInlineBudget) :
    registryChunks records next = [] := by
  have hrest : registryRest records next = [] := List.drop_eq_nil_of_le h
  rw [registryChunks, hrest, chunks, if_pos (.inl rfl)]

/-- The pages of the registry, where there is room for them. -/
theorem serializeSystemPage_pages (hroom : HasRoom g (registryChunks records next).length) :
    ∃ body g', serializeSystemPage records next g =
        .ok (registryPage body, registryChain g.bound (registryChunks records next)) g' ∧
      g'.bound = g.bound + (registryChunks records next).length ∧
        (DirtyBelow g → DirtyBelow g') := by
  by_cases hshort : (serializeSystemMetas records next).length ≤ systemInlineBudget
  · refine ⟨serializeSystemMetas records next, g, ?_, ?_, id⟩
    · rw [serializeSystemPage_inline hshort, registryChunks_short hshort]
      rfl
    · rw [registryChunks_short hshort]
      rfl
  · obtain ⟨g', hok⟩ := serializeSystemPage_chained (Nat.lt_of_not_le hshort) hroom
    have hbound : wlp (serializeSystemPage records next) (fun _ g' =>
        g'.bound = g.bound + (registryChunks records next).length ∧
          (DirtyBelow g → DirtyBelow g')) g := by
      unfold serializeSystemPage
      refine wlp_ite (fun h => absurd h hshort) fun _ => ?_
      refine wp.bind (wlp_allocate_bound _) fun _ g₁ h₁ => ?_
      exact wlp_lift_bind fun _ _ => wlp_lift_bind fun _ _ => wlp_lift_bind fun _ _ => h₁
    exact ⟨_, g', hok, hbound.ok hok⟩

end

/-! ## `Drop` -/

variable {storable : UInt64 → List UInt8 → Prop} {keyed : Prop} {db db' : Db}
  {Ms : String → TableModel}

/-- The log begins with its header. -/
structure Wal.Headed (wal : Wal) : Prop where
  whole : walHeaderSize ≤ wal.file.length
  magic : readLe wal.file 0 4 = walMagic

omit [Crc32Fast] in
theorem Wal.Headed.writeAt {wal : Wal} {n : UInt64} {k : ℕ} (h : wal.Headed) (src : List UInt8)
    {offset : ℕ} (hoffset : 4 ≤ offset) : Headed ⟨Wal.writeAt wal.file offset src, n, k⟩ := by
  have hwhole := h.whole
  have hsize : walHeaderSize = 16 := rfl
  constructor
  · show walHeaderSize ≤ (Wal.writeAt wal.file offset src).length
    rw [Wal.length_writeAt]
    omega
  · show readLe (Wal.writeAt wal.file offset src) 0 4 = walMagic
    rw [readLe, Wal.slice_writeAt_before (by omega) (by omega)]
    exact h.magic

omit [Crc32Fast] in
/-- The emptied log is its header. -/
theorem Wal.Headed.truncate {wal : Wal} (h : wal.Headed) : wal.truncate.Headed := by
  have hcut : Headed ⟨pad walHeaderSize wal.file, 1, 0⟩ := by
    constructor
    · exact (length_pad _ _).ge
    · show readLe (pad walHeaderSize wal.file) 0 4 = walMagic
      have hsize : walHeaderSize = 16 := rfl
      have hwhole := h.whole
      rw [readLe, slice_pad_of_le (by omega) (by omega)]
      exact h.magic
  exact hcut.writeAt _ (by decide)

/-- The records that `Drop` writes. -/
def Db.records (db : Db) : List TableRecord := db.snapshotTableMetas.map TableMeta.record

/-- The database is opened again as it was: the registry fits, there is room for its pages, and
the maps of the tables agree with their columns. -/
structure Db.Closable (db : Db) : Prop where
  fits : RegistryFits db.records
  stream : (registryRest db.records db.nextTableId).length < 2 ^ 32
  room : max 1 db.file.pageCount + (registryChunks db.records db.nextTableId).length < pageNoLimit
  inStep : ∀ name state, db.tables.lookup name = some state → state.InStep

/-- The file with a page for the registry. -/
def Db.firstPage (db : Db) : WriteGuard :=
  if db.file.pageCount = 0 then stateAfter allocatePage db.file else db.file

omit [Crc32Fast] in
theorem dirtyBelow_clean {g : WriteGuard} (hclean : g.writeState = ⟨∅, 0⟩) : DirtyBelow g := by
  intro q hq
  rw [hclean] at hq
  exact absurd hq (AList.notMem_empty q)

theorem firstPage_ok (h : DbInv storable keyed db Ms) :
    DbOk storable keyed true db.tables Ms db.firstPage ∧
      db.firstPage.bound = max 1 db.file.pageCount ∧ DirtyBelow db.firstPage ∧
      db.firstPage.writeState.newPageCount ≤ 1 := by
  have hbound : WriteGuard.bound db.file = db.file.pageCount := bound_eq_pageCount h.clean
  by_cases hzero : db.file.pageCount = 0
  · have halloc :
        wp allocatePage (fun _ g' => Allocates db.file g') (fun _ _ => False) db.file := by
      apply wp_allocatePage_of_lt
      · rw [hbound, hzero]
        decide
      · rw [h.clean]
        decide
      · exact fun _ => id
    obtain ⟨p, g', hrun, halloc⟩ := halloc.exists_ok
    have hfirst : db.firstPage = g' := by
      rw [Db.firstPage, if_pos hzero, stateAfter, hrun]
    have hinFile : discard (Db.inFile allocatePage) db = .ok PUnit.unit { db with file := g' } := by
      have hrun' : Db.inFile allocatePage db = .ok p { db with file := g' } := by
        rw [Db.inFile, hrun]
      exact run_bind_ok hrun'
    obtain ⟨-, hok⟩ := (wlp_firstPage h hzero).ok hinFile
    rw [hfirst]
    refine ⟨hok, ?_, halloc.dirtyBelow (dirtyBelow_clean h.clean), ?_⟩
    · rw [halloc.bound, hbound, hzero]
      rfl
    · rw [halloc.newPageCount, h.clean]
  · have hfirst : db.firstPage = db.file := if_neg hzero
    rw [hfirst]
    refine ⟨h.isStarted hzero, ?_, dirtyBelow_clean h.clean, ?_⟩
    · rw [hbound, max_eq_right (Nat.one_le_iff_ne_zero.mpr hzero)]
    · rw [h.clean]
      exact Nat.zero_le 1

/-- What `Drop` publishes, when nothing is in its way. -/
theorem closingFile_eq {page0 : Page} {pages images : List (ℕ × Page)} {g : WriteGuard}
    {file' : PageFile}
    (hserialize : serializeSystemPage db.records db.nextTableId db.firstPage = .ok (page0, pages) g)
    (hcommit : WriteGuard.commit (putPages ((0, page0) :: pages) g) = .ok (images, file')) :
    db.closingFile = file' := by
  unfold Db.closingFile
  extract_lets first filled
  have hfirst : first = db.firstPage := by
    unfold Db.firstPage stateAfter
    dsimp only [first]
    cases allocatePage db.file <;> rfl
  have hfilled : filled = putPages ((0, page0) :: pages) g := by
    dsimp only [filled]
    rw [hfirst]
    unfold Db.records at hserialize
    rw [hserialize]
    rfl
  rw [hfilled, hcommit]

/-- The file that `Drop` publishes: the tables, and a registry that says what they are. -/
structure Published (db : Db) (Ms : String → TableModel) (storable : UInt64 → List UInt8 → Prop)
    (keyed : Prop) (body : List UInt8) (pages : List (ℕ × Page)) (file : PageFile) : Prop where
  ok : DbOk storable keyed true db.tables Ms file
  clean : file.writeState = ⟨∅, 0⟩
  page0 : file.readPage 0 = .ok (registryPage body)
  chain : ∀ e ∈ pages, file.readPage e.1 = .ok e.2 ∧ Sealed e.2
  back : ∀ file' : PageFile, (∀ e ∈ pages, file'.readPage e.1 = .ok e.2) →
    ∃ tables, deserializeSystemPage (registryPage body) file' = .ok (tables, db.nextTableId) ∧
      List.Forall₂ SameTable db.records tables

theorem DbInv.published (h : DbInv storable keyed db Ms) (hc : db.Closable) :
    ∃ body pages, Published db Ms storable keyed body pages db.closingFile := by
  obtain ⟨hok, hbound, hdirty, hcount⟩ := firstPage_ok h
  have hroom := hc.room
  rw [← hbound] at hroom
  have hpos : 0 < db.firstPage.bound := by omega
  have hhas : HasRoom db.firstPage (registryChunks db.records db.nextTableId).length :=
    .inr ⟨hroom.le, by omega⟩
  obtain ⟨body, g, hserialize, hgbound, hgdirty⟩ := serializeSystemPage_pages hhas
  set chain := registryChain db.firstPage.bound (registryChunks db.records db.nextTableId)
    with hchain
  have hnew : ∀ e ∈ chain, db.firstPage.bound ≤ e.1 ∧ e.1 < g.bound := by
    intro e he
    have hbounds := registryChain_bounds e he
    omega
  set filled := putPages ((0, registryPage body) :: chain) g with hfilled
  have hfbound : filled.bound = g.bound := putPages_bound _ _
  have hnodup : (((0, registryPage body) :: chain).map Prod.fst).Nodup := by
    rw [List.map_cons, List.nodup_cons]
    refine ⟨fun hmem => ?_, nodup_registryChain _ _⟩
    obtain ⟨e, he, hzero⟩ := List.mem_map.mp hmem
    have := (hnew e he).1
    omega
  obtain ⟨hput, hkept⟩ := @putPages_view _ _ g hnodup
  -- the commit goes through, since the overlay has pages of the file only
  have hfdirty : DirtyBelow filled := by
    intro q hq
    rw [hfbound]
    rcases putPages_dirty hq with hmem | hq
    · obtain ⟨e, he, rfl⟩ := List.mem_map.mp hmem
      rcases List.mem_cons.mp he with rfl | he
      · show 0 < g.bound
        omega
      · exact (hnew e he).2
    · exact hgdirty hdirty q hq
  obtain ⟨⟨images, file⟩, hcommit⟩ := commit_ok hfdirty (by omega)
  rw [closingFile_eq hserialize hcommit]
  have htouches : Touches db.firstPage filled [0] := by
    obtain ⟨ht, -⟩ := wlp_serializeSystemPage.ok hserialize
    refine ⟨fun q hq hnot => ?_, by omega⟩
    rw [← ht.view_eq q hq List.not_mem_nil]
    refine hkept q fun hmem => ?_
    obtain ⟨e, he, rfl⟩ := List.mem_map.mp hmem
    rcases List.mem_cons.mp he with rfl | he
    · exact hnot List.mem_cons_self
    · have := (hnew e he).1
      omega
  have hread : ∀ e ∈ (0, registryPage body) :: chain, file.readPage e.1 = .ok e.2 := by
    intro e he
    refine commit_readPage hcommit ?_ (hput e he)
    rw [hfbound]
    rcases List.mem_cons.mp he with rfl | he
    · show 0 < g.bound
      omega
    · exact (hnew e he).2
  refine ⟨body, chain, ?_, (commit_eq hcommit).2.1, hread _ List.mem_cons_self, fun e he => ?_, ?_⟩
  · exact (hok.registry fun P hP => turns_systemPage htouches hP).commit hcommit
  · exact ⟨hread e (List.mem_cons_of_mem _ he), sealed_registryChain e he⟩
  · obtain ⟨page0, pages, g', hserialize', hback⟩ := readBack_of_fits hpos hc.fits ⟨hc.stream, hhas⟩
    rw [hserialize] at hserialize'
    obtain ⟨hpair, -⟩ := EStateM.Result.ok.inj hserialize'
    obtain ⟨rfl, rfl⟩ := Prod.mk.inj hpair
    exact hback

/-! ## `open` -/

omit [Crc32Fast] in
/-- The emptied log is opened, and has no entries. -/
theorem Wal.Headed.open_truncate {wal : Wal} (h : wal.Headed) :
    Wal.open wal.truncate.file = .ok ⟨wal.truncate.file, 1, 0⟩ := by
  have hsize : walHeaderSize = 16 := rfl
  have hfile : wal.truncate.file = Wal.writeAt (pad walHeaderSize wal.file) 8 (leBytes 4 0) := rfl
  have hwhole := h.truncate.whole
  have hmagic := h.truncate.magic
  have hcount : readLe wal.truncate.file 8 4 = 0 := by
    have hself := Wal.slice_writeAt_self (pad walHeaderSize wal.file) 8 (leBytes 4 0)
    rw [length_leBytes] at hself
    rw [hfile, readLe, hself, leNat_leBytes_of_lt (by omega)]
  rw [Wal.open, if_neg (by omega), if_neg (by omega), if_neg (not_not.mpr hmagic), hcount]
  rfl

/-- Nothing is redone from the emptied log. -/
theorem recover_closed (h : db.wal.Headed) : Db.recover db.close = .ok db.close := by
  unfold Db.recover Db.close
  dsimp only
  rw [h.open_truncate, ok_bind, if_neg (Nat.lt_irrefl 0)]
  rfl

/-- The tables as the registry has them: the maps of a table are made from its columns. -/
def TableMeta.rebuilt (t : TableMeta) : TableMeta :=
  { TableMeta.new t.name t.tableId t.columns t.rootPage with
    rowCount := t.rowCount
    nextRowid := t.nextRowid
    indexes := t.indexes }

omit [Crc32Fast] in
/-- Every table that is read is made from its record. -/
theorem wlp_deserializeTable_rebuilt {bytes : List UInt8} :
    wlp deserializeTable (fun t _ => t.state.rebuilt = t.state) bytes := by
  unfold deserializeTable
  refine wp.bind wlp_true fun _ s₁ _ => wp.bind wlp_true fun tableId s₂ _ => ?_
  refine wp.bind wlp_true fun rootPage s₃ _ => wp.bind wlp_true fun rowCount s₄ _ => ?_
  refine wp.bind wlp_true fun nextRowid s₅ _ => wp.bind wlp_true fun _ s₆ _ => ?_
  refine wp.bind wlp_true fun nameLen s₇ _ => wp.bind wlp_true fun _ s₈ _ => ?_
  refine wp.bind wlp_true fun nameBytes s₉ _ => wlp_lift_bind fun name _ => ?_
  refine wp.bind wlp_true fun _ s₁₀ _ => wp.bind wlp_true fun numColumns s₁₁ _ => ?_
  refine wp.bind wlp_true fun columns s₁₂ _ => wp.bind wlp_true fun _ s₁₃ _ => ?_
  refine wp.bind wlp_true fun numIndexes s₁₄ _ => wp.bind wlp_true fun indexes s₁₅ _ => ?_
  exact wp.bind wlp_true fun encrypted s₁₆ _ => rfl

omit [Crc32Fast] in
theorem wlp_times {α : Type} {read : StreamReader α} {R : α → Prop}
    (hread : ∀ bytes, wlp read (fun a _ => R a) bytes) (n : ℕ) {bytes : List UInt8} :
    wlp (times read n) (fun l _ => ∀ a ∈ l, R a) bytes := by
  induction n generalizing bytes with
  | zero => exact nofun
  | succ n ih =>
      refine wp.bind (hread bytes) fun a s ha => wp.bind ih fun l s' hl => ?_
      exact List.forall_mem_cons.mpr ⟨ha, hl⟩

omit [Crc32Fast] in
theorem rebuilt_of_run {bytes : List UInt8} {tables : List TableRecord} {next : UInt32}
    (h : deserializeSystemMetas.run bytes = .ok (tables, next)) :
    ∀ t ∈ tables, t.state.rebuilt = t.state := by
  obtain ⟨s, hread⟩ := run_eq_ok_iff.mp h
  have hall :
      wlp deserializeSystemMetas (fun r _ => ∀ t ∈ r.1, t.state.rebuilt = t.state) bytes := by
    unfold deserializeSystemMetas
    refine wp.bind wlp_true fun _ s₁ _ => wp.bind wlp_true fun magic s₂ _ => ?_
    refine wlp_ite (fun _ => wlp_throw) fun _ => ?_
    refine wp.bind wlp_true fun _ s₃ _ => wp.bind wlp_true fun nextTableId s₄ _ => ?_
    refine wp.bind wlp_true fun _ s₅ _ => wp.bind wlp_true fun numTables s₆ _ => ?_
    exact wp.bind (wlp_times (fun _ => wlp_deserializeTable_rebuilt) _) fun tables s₇ h => h
  exact hall.ok hread

theorem rebuilt_of_deserialize {page0 : Page} {tables : List TableRecord} {next : UInt32}
    (h : deserializeSystemPage page0 file = .ok (tables, next)) :
    ∀ t ∈ tables, t.state.rebuilt = t.state := by
  unfold deserializeSystemPage at h
  obtain ⟨inline, -, h⟩ := bind_eq_ok.mp h
  obtain ⟨marker, -, h⟩ := bind_eq_ok.mp h
  by_cases hmarker : marker ≠ overflowMagic
  · rw [if_pos hmarker] at h
    exact rebuilt_of_run h
  · rw [if_neg hmarker] at h
    obtain ⟨firstPage, -, h⟩ := bind_eq_ok.mp h
    obtain ⟨remainingLen, -, h⟩ := bind_eq_ok.mp h
    by_cases hnone : firstPage = 0 ∧ 0 < remainingLen
    · rw [if_pos hnone] at h
      cases h
    · rw [if_neg hnone] at h
      obtain ⟨bytes, -, h⟩ := bind_eq_ok.mp h
      exact rebuilt_of_run h

namespace TableMeta

omit [Crc32Fast] in
/-- A name in the map is the name of a live column at the position it is taken to. -/
theorem liveNames_eq_some {columns : List ColumnDef} {name : String} {i : UInt16}
    (h : liveNames columns name = some i) :
    ∃ k c, columns[k]? = some c ∧ c.name = name ∧ c.dropped = false ∧ i = UInt16.ofNat k := by
  induction columns using List.reverseRecOn with
  | nil => cases h
  | append_singleton columns c ih =>
      have hfront : liveNames columns name = some i → ∃ k c', (columns ++ [c])[k]? = some c' ∧
          c'.name = name ∧ c'.dropped = false ∧ i = UInt16.ofNat k := by
        intro hold
        obtain ⟨k, c', hc', hrest⟩ := ih hold
        refine ⟨k, c', ?_, hrest⟩
        rw [List.getElem?_append_left (List.getElem?_eq_some_iff.mp hc').1, hc']
      rw [liveNames_concat] at h
      by_cases hdropped : c.dropped = true
      · rw [if_pos hdropped] at h
        exact hfront h
      · rw [if_neg hdropped] at h
        by_cases hname : name = c.name
        · subst hname
          rw [Function.update_self] at h
          refine ⟨columns.length, c, ?_, rfl, Bool.eq_false_of_not_eq_true hdropped,
            (Option.some.inj h).symm⟩
          exact List.getElem?_concat_length
        · rw [Function.update_of_ne hname] at h
          exact hfront h

omit [Crc32Fast] in
/-- Every live column has its name in the map. -/
theorem liveNames_isSome {columns : List ColumnDef} {c : ColumnDef} (hmem : c ∈ columns)
    (hlive : c.dropped = false) : (liveNames columns c.name).isSome := by
  induction columns using List.reverseRecOn with
  | nil => cases hmem
  | append_singleton columns c' ih =>
      rw [liveNames_concat]
      rcases List.mem_append.mp hmem with hmem | hmem
      · by_cases hdropped : c'.dropped = true
        · rw [if_pos hdropped]
          exact ih hmem
        · rw [if_neg hdropped]
          by_cases hname : c.name = c'.name
          · rw [hname, Function.update_self]
            rfl
          · rw [Function.update_of_ne hname]
            exact ih hmem
      · obtain rfl := List.mem_singleton.mp hmem
        rw [if_neg (by simp [hlive]), Function.update_self]
        rfl

omit [Crc32Fast] in
/-- **A table whose maps agree with its columns is rebuilt as it was.** -/
theorem InStep.rebuilt {t : TableMeta} (h : t.InStep) : t.rebuilt = t := by
  have hids : liveNames t.columns = t.colNameToId := by
    funext name
    cases hname : liveNames t.columns name with
    | some i =>
        obtain ⟨k, c, hc, hcname, hlive, rfl⟩ := liveNames_eq_some hname
        exact (h.colId_eq ⟨c, hc, hcname, hlive⟩).symm
    | none =>
        cases hid : t.colNameToId name with
        | none => rfl
        | some i =>
            obtain ⟨c, hc, rfl, hlive⟩ := (h.ids name i).mp hid
            have hsome := liveNames_isSome (List.mem_of_getElem? hc) hlive
            rw [hname] at hsome
            cases hsome
  have hnames := h.colNames
  have hdefs := h.colDefs
  obtain ⟨name, tableId, columns, colNameToId, colNames, colDefs⟩ := t
  dsimp only at hids hnames hdefs
  subst hids hnames hdefs
  rfl

end TableMeta

/-- The name of a table is the one it is kept under. -/
def Db.Named (db : Db) : Prop :=
  ∀ name state, db.tables.lookup name = some state → state.name = name

/-- The log has its header, and each table stands under its own name. -/
structure Db.Orderly (db : Db) : Prop where
  named : db.Named
  headed : db.wal.Headed

/-- The databases have the same tables with the same contents. -/
structure Db.Same (db db' : Db) : Prop where
  tables : ∀ name, db'.tables.lookup name = db.tables.lookup name
  nextTableId : db'.nextTableId = db.nextTableId
  contents : db'.contents = db.contents

omit [Crc32Fast] in
theorem rebuilt_of_same {a b : TableRecord} (h : SameTable a b) (hb : b.state.rebuilt = b.state)
    (ha : a.state.InStep) : b.state = a.state :=
  have hsame := h.1
  calc b.state
      = b.state.rebuilt := hb.symm
    _ = a.state.rebuilt := by
        unfold TableMeta.rebuilt
        rw [hsame.name, hsame.tableId, hsame.columns, hsame.rootPage, hsame.rowCount,
          hsame.nextRowid, hsame.indexes]
    _ = a.state := ha.rebuilt

omit [Crc32Fast] in
/-- The tables that are read back are those of the database. -/
theorem states_of_same {metas : List TableMeta} {tables : List TableRecord}
    (hsame : List.Forall₂ SameTable (metas.map TableMeta.record) tables)
    (hrebuilt : ∀ t ∈ tables, t.state.rebuilt = t.state) (hmetas : ∀ t ∈ metas, t.InStep) :
    tables.map TableRecord.state = metas := by
  rw [List.forall₂_map_left_iff] at hsame
  induction hsame with
  | nil => rfl
  | cons h hsame ih =>
      rw [List.forall_mem_cons] at hrebuilt hmetas
      rw [List.map_cons, ih hrebuilt.2 hmetas.2, rebuilt_of_same h hrebuilt.1 hmetas.1]
      rfl

omit [Crc32Fast] in
theorem lookup_snapshot (hnamed : db.Named) :
    (db.snapshotTableMetas.foldl (fun tables t => tables.insert t.name t)
      (∅ : Tables)).lookup = db.tables.lookup := by
  have hfold : db.snapshotTableMetas.foldl (fun tables t => tables.insert t.name t) (∅ : Tables) =
      (db.snapshotTableMetas.map fun t => (t.name, t)).foldl
        (fun tables e => tables.insert e.1 e.2) ∅ := by
    rw [List.foldl_map]
  rw [hfold]
  apply AList.lookup_foldl_insert_empty
  intro name state
  rw [List.mem_map]
  constructor
  · rintro ⟨t, ht, heq⟩
    obtain ⟨rfl, rfl⟩ := Prod.mk.inj heq
    obtain ⟨⟨key, t'⟩, hentry, rfl⟩ := List.mem_map.mp ht
    have hkey := AList.mem_lookup_iff.mpr hentry
    rw [hnamed key t' hkey]
    exact hkey
  · intro hlookup
    refine ⟨state, ?_, by rw [hnamed name state hlookup]⟩
    exact List.mem_map.mpr ⟨⟨name, state⟩, AList.mem_lookup_iff.mp hlookup, rfl⟩

omit [Crc32Fast] in
theorem mem_snapshot {t : TableMeta} (h : t ∈ db.snapshotTableMetas) :
    ∃ name, db.tables.lookup name = some t := by
  obtain ⟨⟨name, t'⟩, hentry, rfl⟩ := List.mem_map.mp h
  exact ⟨name, AList.mem_lookup_iff.mpr hentry⟩

/-- The registry of a closed database is loaded. -/
theorem loadRegistry_closed (h : DbInv storable keyed db Ms) (hc : db.Closable)
    (hnamed : db.Named) :
    ∃ tables : Tables, Db.loadRegistry (PageFile.open db.closingFile.syncAll.disk) =
        .ok (tables, db.nextTableId) ∧
      (∀ name, tables.lookup name = db.tables.lookup name) ∧
      DbOk storable keyed true tables Ms (PageFile.open db.closingFile.syncAll.disk) := by
  obtain ⟨body, pages, hpub⟩ := h.published hc
  have hcopy := copies_synced hpub.clean
  have hsynced : ∀ p page, db.closingFile.readPage p = .ok page → Sealed page →
      (PageFile.open db.closingFile.syncAll.disk).readPage p = .ok page :=
    fun _ _ => readPage_synced
  have hclean : (PageFile.open db.closingFile.syncAll.disk).writeState = ⟨∅, 0⟩ := rfl
  generalize PageFile.open db.closingFile.syncAll.disk = file at hcopy hsynced hclean ⊢
  have hpage0 := hsynced 0 (registryPage body) hpub.page0 (sealed_pageOf rfl)
  have hpos : 0 < file.pageCount := by
    rw [← bound_eq_pageCount hclean]
    exact lt_bound_of_view hclean
      (view_eq_some.mpr ((congrFun (view_eq_readPage hclean) 0).trans hpage0))
  obtain ⟨tables, hread, hsame⟩ := hpub.back file fun e he =>
    hsynced e.1 e.2 (hpub.chain e he).1 (hpub.chain e he).2
  have hstates : tables.map TableRecord.state = db.snapshotTableMetas := by
    refine states_of_same hsame (rebuilt_of_deserialize hread) fun t ht => ?_
    obtain ⟨name, hname⟩ := mem_snapshot ht
    exact hc.inStep name t hname
  have hlookup : ∀ name, (tables.foldl (fun tables table =>
      tables.insert table.state.name table.state) (∅ : Tables)).lookup name =
      db.tables.lookup name := by
    intro name
    rw [← congrFun (lookup_snapshot hnamed) name, ← hstates, List.foldl_map]
  refine ⟨_, ?_, hlookup, hpub.ok.copied hcopy hclean hpos hlookup⟩
  have hflags : (registryPage body).flags &&& pageSystem ≠ 0 := by
    rw [registryPage, Lays.pageOf.flags]
    decide
  rw [Db.loadRegistry, if_pos hpos, hpage0, ok_bind, if_pos hflags, hread, ok_bind]
  rfl

/-- **A database that is closed and opened again is the same database**: its tables stand in the
file as they stood, under the same next table id, and hold the same contents. -/
theorem DbInv.opensAgain (h : DbInv storable keyed db Ms) (ho : db.Orderly) (hc : db.Closable) :
    ∃ db', Db.open db.close = .ok db' ∧ DbInv storable keyed db' Ms ∧ db'.Orderly ∧
      db.Same db' := by
  obtain ⟨tables, hload, hlookup, hok⟩ := loadRegistry_closed h hc ho.named
  let db' : Db := ⟨PageFile.open db.closingFile.syncAll.disk, ⟨db.wal.truncate.file, 1, 0⟩, tables,
    db.nextTableId, .normal, false, 10 * 1024 * 1024⟩
  have hinv : DbInv storable keyed db' Ms := ⟨rfl, true, hok⟩
  refine ⟨db', ?_, hinv, ⟨?_, ?_⟩, hlookup, rfl, ?_⟩
  · rw [Db.open, recover_closed ho.headed, ok_bind]
    dsimp only [Db.close]
    rw [ho.headed.open_truncate, ok_bind, hload, ok_bind]
    rfl
  · intro name state hname
    exact ho.named name state ((hlookup name).symm.trans hname)
  · exact ho.headed.truncate
  · rw [h.contents_eq, hinv.contents_eq]
    funext name
    show contentsOf tables Ms name = contentsOf db.tables Ms name
    rw [contentsOf, contentsOf, hlookup]

end

end BoogyDb
