import BoogyDb.FileFrames
import BoogyDb.Lib.Redo
import BoogyDb.WalLog

/-!
# What recovery and `Drop` write

`Db.recover` and `Db.close` change the data file and the log by a list of writes each:
`recoveryWrites` and `closeWrites`.  A process that stops in between has done the first
few of them.  Done to the end they give what `recover` and `close` give
(`recover_eq`, `close_eq`).

The page writes of a recovery are a redo of the images in the log, and flushing the cache
is a redo of what is cached.
-/

namespace BoogyDb

open Bytes RedoLog

/-- A write to the disk; a process may stop between any two. -/
inductive DiskWrite
  /-- The page that `put_page_direct` writes. -/
  | page (pageNo : ℕ) (page : Page)
  /-- `sync_all` of the pages that the file has cached. -/
  | sync (file : PageFile)
  | walBytes (offset : ℕ) (src : List UInt8)
  /-- `set_len` of the log. -/
  | walLen (len : ℕ)

def DiskWrite.apply (storage : Storage) : DiskWrite → Storage
  | .page pageNo data => { storage with disk := writePageAt storage.disk pageNo data }
  | .sync file => { storage with disk := { file with disk := storage.disk }.syncAll.disk }
  | .walBytes offset src => { storage with walFile := Wal.writeAt storage.walFile offset src }
  | .walLen len => { storage with walFile := pad len storage.walFile }

/-- The contents after some writes. -/
def Storage.after (storage : Storage) (writes : List DiskWrite) : Storage :=
  writes.foldl DiskWrite.apply storage

namespace Wal

/-- `write_header`, byte by byte. -/
def headerWrites : List DiskWrite :=
  (header 0).zipIdx.map fun byte => .walBytes byte.2 [byte.1]

/-- `truncate`: the length, then the count. -/
def truncateWrites : List DiskWrite := [.walLen walHeaderSize, .walBytes 8 (leBytes 4 0)]

end Wal

namespace Db

section

variable [Crc32Fast]

/-- The writes of a recovery. -/
def recoveryWrites (storage : Storage) : Result (List DiskWrite) := do
  let wal ← Wal.open storage.walFile
  let created := if storage.walFile.length = 0 then Wal.headerWrites else []
  if 0 < wal.entryCount then
    let entries ← wal.readEntries
    let file ← entries.foldlM (fun file entry => file.putPageDirect entry.pageNo entry.pageData)
      (PageFile.open storage.disk)
    pure (created ++ entries.map (fun entry => DiskWrite.page entry.pageNo entry.pageData) ++
      [.sync file] ++ Wal.truncateWrites)
  else pure created

/-- The writes of `Drop`. -/
def closeWrites (db : Db) : List DiskWrite := [.sync db.closingFile] ++ Wal.truncateWrites

end

end Db

/-! ## Redoing pages -/

/-- The images of pages in a list of log entries. -/
def images (entries : List WalEntry) : List (ℕ × Page) :=
  entries.map fun entry => (entry.pageNo, entry.pageData)

theorem after_append (storage : Storage) (writes writes' : List DiskWrite) :
    storage.after (writes ++ writes') = (storage.after writes).after writes' :=
  List.foldl_append

theorem after_pages (storage : Storage) (entries : List WalEntry) :
    storage.after (entries.map fun entry => .page entry.pageNo entry.pageData) =
      { storage with disk := redo Page.zeroed storage.disk (images entries) } := by
  induction entries generalizing storage with
  | nil => rfl
  | cons entry entries ih => exact ih (DiskWrite.apply storage (.page entry.pageNo entry.pageData))

namespace PageFile

/-- The cached pages, with their numbers. -/
def cached (pages : List (Option Page)) : List (ℕ × Page) :=
  pages.zipIdx.filterMap fun slot => slot.1.map fun page => (slot.2, page)

theorem mem_cached {pages : List (Option Page)} {p : ℕ} {page : Page} :
    (p, page) ∈ cached pages ↔ pages[p]?.join = some page := by
  unfold cached
  rw [List.mem_filterMap]
  constructor
  · rintro ⟨⟨slot, q⟩, hmem, hslot⟩
    obtain ⟨page', hpage', heq⟩ := Option.map_eq_some_iff.mp hslot
    cases heq
    have hget := List.mk_mem_zipIdx_iff_getElem?.mp hmem
    change slot = some page at hpage'
    rw [hget, hpage']
    rfl
  · intro h
    have hslot : pages[p]? = some (some page) := Option.join_eq_some_iff.mp h
    exact ⟨(some page, p), List.mk_mem_zipIdx_iff_getElem?.mpr hslot, rfl⟩

theorem syncAll_disk (file : PageFile) :
    file.syncAll.disk = redo Page.zeroed file.disk (cached file.pages) := by
  unfold syncAll cached redo
  rw [List.foldl_filterMap]
  change List.foldl _ _ _ = List.foldl _ _ _
  congr 1
  funext disk slot
  cases slot.1 with
  | none => rfl
  | some page => rfl

variable {file file' : PageFile} {disk : List Page} {entries : List WalEntry}

theorem putPageDirect_eq_ok {pageNo : ℕ} {page : Page}
    (h : file.putPageDirect pageNo page = .ok file') :
    file'.disk = write Page.zeroed file.disk (pageNo, page) ∧
      file'.numPages = max file.numPages (pageNo + 1) ∧
      file'.pages = cachePage file.pages pageNo page := by
  unfold putPageDirect at h
  split at h
  · cases h
  · cases h
    refine ⟨rfl, ?_, rfl⟩
    dsimp only
    split
    · rename_i hle
      rw [max_eq_right (Nat.le_succ_of_le hle)]
    · rename_i hlt
      rw [max_eq_left (Nat.lt_of_not_le hlt)]

/-- The redo loop writes the images to the disk, and caches them. -/
theorem redoLoop_eq_ok
    (h : entries.foldlM (fun file entry => file.putPageDirect entry.pageNo entry.pageData) file =
      .ok file') :
    file'.disk = redo Page.zeroed file.disk (images entries) ∧
      ∀ p : ℕ, file'.pages[p]?.join = (image (images entries) p).or file.pages[p]?.join := by
  induction entries generalizing file with
  | nil =>
      cases h
      exact ⟨rfl, fun _ => rfl⟩
  | cons entry entries ih =>
      rw [List.foldlM_cons] at h
      obtain ⟨next, hput, hrest⟩ := bind_eq_ok.mp h
      obtain ⟨hdisk, -, hpages⟩ := putPageDirect_eq_ok hput
      obtain ⟨hdisk', hpages'⟩ := ih hrest
      refine ⟨by rw [hdisk', hdisk]; rfl, fun p => ?_⟩
      rw [hpages', hpages, cachePage_getElem?]
      simp only [images, List.map_cons, image, Option.or_assoc]
      congr 1
      by_cases hp : p = entry.pageNo
      · rw [if_pos hp, if_pos hp.symm, Option.some_or]
      · rw [if_neg hp, if_neg (Ne.symm hp), Option.none_or]

/-- The page numbers that `put_page_direct` takes without an overflow of the page count. -/
def Addressable (numPages : ℕ) (entries : List WalEntry) : Prop :=
  ∀ entry ∈ entries, entry.pageNo < numPages ∨ entry.pageNo + 1 < pageNoLimit

theorem redoLoop_total (h : Addressable file.numPages entries) : ∃ file',
    entries.foldlM (fun file entry => file.putPageDirect entry.pageNo entry.pageData) file =
      .ok file' := by
  induction entries generalizing file with
  | nil => exact ⟨file, rfl⟩
  | cons entry entries ih =>
      have hentry := h entry List.mem_cons_self
      have hput : ∃ next, file.putPageDirect entry.pageNo entry.pageData = .ok next := by
        unfold putPageDirect
        rw [if_neg (by omega)]
        exact ⟨_, rfl⟩
      obtain ⟨next, hput⟩ := hput
      have hfits : Addressable next.numPages entries := by
        intro entry' hmem
        rw [(putPageDirect_eq_ok hput).2.1]
        rcases h entry' (List.mem_cons_of_mem _ hmem) with hlt | hlt
        · exact .inl (lt_max_of_lt_left hlt)
        · exact .inr hlt
      obtain ⟨file', hrest⟩ := ih hfits
      refine ⟨file', ?_⟩
      rw [List.foldlM_cons, hput]
      exact hrest

theorem open_pages (disk : List Page) (p : ℕ) : (PageFile.open disk).pages[p]?.join = none := by
  change (List.replicate disk.length none)[p]?.join = none
  rw [List.getElem?_replicate]
  split <;> rfl

/-- What the redo loop cached is on the disk already. -/
theorem redoLoop_synced
    (h : entries.foldlM (fun file entry => file.putPageDirect entry.pageNo entry.pageData)
      (PageFile.open disk) = .ok file') :
    redo Page.zeroed (redo Page.zeroed disk (images entries)) (cached file'.pages) =
      redo Page.zeroed disk (images entries) := by
  apply redo_eq_self
  rintro ⟨p, page⟩ hmem
  have hslot := (redoLoop_eq_ok h).2 p
  rw [mem_cached.mp hmem, open_pages, Option.or_none] at hslot
  exact getElem?_redo_of_image _ _ hslot.symm

end PageFile

/-! ## The writes are those of the source -/

theorem Wal.writeAt_end (file src : List UInt8) :
    Wal.writeAt file file.length src = file ++ src := by
  rw [Wal.writeAt, max_eq_right (Nat.le_add_right _ _), blit_pad_end le_rfl, pad_of_le]
  · rw [List.length_append, Nat.sub_self, List.replicate_zero, List.append_nil]
  · rw [List.length_append]

/-- Bytes written one by one behind what is there. -/
theorem after_bytes (disk : List Page) (file src : List UInt8) :
    Storage.after ⟨disk, file⟩ ((src.zipIdx file.length).map fun byte => .walBytes byte.2 [byte.1]) =
      ⟨disk, file ++ src⟩ := by
  induction src generalizing file with
  | nil => rw [List.append_nil]; rfl
  | cons b src ih =>
      have hstep : DiskWrite.apply ⟨disk, file⟩ (.walBytes file.length [b]) =
          ⟨disk, file ++ [b]⟩ := by
        rw [DiskWrite.apply, Wal.writeAt_end]
      have hlen : file.length + 1 = (file ++ [b]).length := by simp
      rw [List.zipIdx_cons, List.map_cons, Storage.after, List.foldl_cons, ← Storage.after, hstep,
        hlen, ih, List.append_assoc]
      rfl

theorem headerWrites_take (k : ℕ) : Wal.headerWrites.take k =
    (((Wal.header 0).take k).zipIdx 0).map fun byte => .walBytes byte.2 [byte.1] := by
  rw [Wal.headerWrites, ← List.map_take]
  congr 1
  apply List.ext_getElem?
  intro i
  rcases Nat.lt_or_ge i k with hi | hi
  · rw [List.getElem?_take_of_lt hi, List.getElem?_zipIdx, List.getElem?_zipIdx,
      List.getElem?_take_of_lt hi]
  · have hnone : ∀ {α : Type} (l : List α), (l.take k)[i]? = none := fun l =>
      List.getElem?_eq_none ((List.length_take_le _ _).trans hi)
    rw [hnone, List.getElem?_zipIdx, hnone]
    rfl

/-- A log that is created holds the bytes of the header that were written. -/
theorem after_header (disk : List Page) (k : ℕ) :
    Storage.after ⟨disk, []⟩ (Wal.headerWrites.take k) = ⟨disk, (Wal.header 0).take k⟩ := by
  rw [headerWrites_take]
  exact after_bytes disk [] _

/-- The length is cut before the count is reset. -/
theorem after_truncate (disk : List Page) (wal : Wal) :
    Storage.after ⟨disk, wal.file⟩ Wal.truncateWrites = ⟨disk, wal.truncate.file⟩ := rfl

namespace Db

variable [Crc32Fast]

theorem closingFile_disk (db : Db) : db.closingFile.disk = db.file.disk := by
  have hframe : ∀ {g g' : WriteGuard}, SameFile g g' → g'.disk = g.disk := by
    intro g g' h
    rw [h]
  have hput : ∀ (pages : List (ℕ × Page)) (g : WriteGuard),
      (pages.foldl (fun file p => { file with
        writeState.dirty := file.writeState.dirty.insert p.1 p.2 }) g).disk = g.disk := by
    intro pages
    induction pages with
    | nil => exact fun _ => rfl
    | cons p pages ih => exact fun g => ih _
  unfold closingFile
  extract_lets first filled
  have hfirst : first.disk = db.file.disk := by
    dsimp only [first]
    split
    · cases hrun : WriteGuard.allocatePage db.file with
      | ok p g => exact hframe (Framed.allocatePage.ok hrun)
      | error e g => exact hframe (Framed.allocatePage.error hrun)
    · rfl
  have hfilled : filled.disk = first.disk := by
    dsimp only [filled]
    split
    · rename_i hserialize
      have hdisk := hframe ((Framed.serializeSystemPage _ _).ok hserialize)
      exact (hput _ _).trans hdisk
    · rename_i hserialize
      exact hframe ((Framed.serializeSystemPage _ _).error hserialize)
  cases hcommit : WriteGuard.commit filled with
  | ok r => exact (WriteGuard.commit_eq hcommit).2.2.trans (hfilled.trans hfirst)
  | error e => exact hfilled.trans hfirst

theorem close_eq (db : Db) : db.close = db.crash.after db.closeWrites := by
  have hfile : { db.closingFile with disk := db.file.disk } = db.closingFile := by
    rw [← closingFile_disk]
  change _ = Storage.after ⟨PageFile.disk { db.closingFile with disk := db.file.disk }.syncAll,
    db.wal.file⟩ Wal.truncateWrites
  rw [hfile, after_truncate]
  rfl

theorem recover_eq (storage : Storage) :
    recover storage = (recoveryWrites storage).map storage.after := by
  obtain ⟨disk, walFile⟩ := storage
  unfold recover recoveryWrites
  dsimp only
  cases hopen : Wal.open walFile with
  | error e => rfl
  | ok wal =>
      rw [ok_bind, ok_bind]
      rcases Wal.open_cases hopen with ⟨rfl, rfl⟩ | ⟨hfile, rfl⟩
      · -- the log is created, and has no entries
        have hcreated := after_header disk 16
        rw [List.take_of_length_le (by decide), List.take_of_length_le (by decide)] at hcreated
        rw [if_neg (Nat.lt_irrefl 0), if_neg (Nat.lt_irrefl 0), if_pos List.length_nil]
        exact congrArg Except.ok hcreated.symm
      · rw [if_neg hfile]
        by_cases hcount : 0 < wal.entryCount
        · rw [if_pos hcount, if_pos hcount]
          cases wal.readEntries with
          | error e => rfl
          | ok entries =>
              rw [ok_bind, ok_bind]
              cases hloop : entries.foldlM
                  (fun file entry => PageFile.putPageDirect file entry.pageNo entry.pageData)
                  (PageFile.open disk) with
              | error e => rfl
              | ok file =>
                  have hdisk : file.disk = redo Page.zeroed disk (images entries) :=
                    (PageFile.redoLoop_eq_ok hloop).1
                  have hsync : DiskWrite.apply
                      ⟨redo Page.zeroed disk (images entries), wal.file⟩ (.sync file) =
                      ⟨file.syncAll.disk, wal.file⟩ := by
                    rw [← hdisk]
                    rfl
                  refine congrArg Except.ok ?_
                  rw [List.nil_append, after_append, after_append, after_pages]
                  change _ = (DiskWrite.apply _ (.sync file)).after _
                  rw [hsync, after_truncate]
        · rw [if_neg hcount, if_neg hcount]
          rfl

end Db

end BoogyDb
