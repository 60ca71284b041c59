import BoogyDb.RecoverySteps

/-!
# What is published is logged

While the durability is not `None`, pages come into the shared cache from the disk, or by a
commit, and a commit appends an image of each to the log.  So a cached page is its last image
in the log, or the page of the disk if the log has none (`Cached`), and a redo of the log over
the disk gives it back.

`Keeps` says that a program keeps this, also when it fails; only a program that fails because
the log is full has published pages that are not in the log.
-/

namespace BoogyDb

open Wp WriteGuard RedoLog PageFile

/-! ## Cached pages and the log -/

/-- The image of a page: what is cached, or what a read would load into the cache. -/
def PageFile.image (file : PageFile) (p : ℕ) : Option Page :=
  file.pages[p]?.join.or file.disk[p]?

/-- A cached page is its last image, or the page of the disk if there is none; the pages
that have images are cached. -/
structure Cached (file : PageFile) (log : List (ℕ × Page)) : Prop where
  slot : ∀ (p : ℕ) page, file.pages[p]?.join = some page →
    (RedoLog.image log p).or file.disk[p]? = some page
  empty : ∀ p : ℕ, file.pages[p]?.join = none → RedoLog.image log p = none

/-- The cache has slots for pages of the file only. -/
def Sized (file : PageFile) : Prop := file.pages.length ≤ file.numPages

section

variable {file file' : PageFile} {log : List (ℕ × Page)}

theorem cached_open (disk : List Page) : Cached (PageFile.open disk) [] where
  slot p page h := by
    rw [open_pages] at h
    cases h
  empty _ _ := rfl

theorem sized_open (disk : List Page) : Sized (PageFile.open disk) := by
  simp [Sized, PageFile.open]

/-- **A redo of the log over the disk gives every page its image.** -/
theorem Cached.redo {p : ℕ} {page : Page} (h : Cached file log) (himage : file.image p = some page) :
    (redo Page.zeroed file.disk log)[p]? = some page := by
  have hlast : (RedoLog.image log p).or file.disk[p]? = some page := by
    unfold PageFile.image at himage
    cases hslot : file.pages[p]?.join with
    | some page' =>
        rw [hslot] at himage
        cases himage
        exact h.slot p page hslot
    | none =>
        rw [hslot] at himage
        rwa [h.empty p hslot]
  cases hlog : RedoLog.image log p with
  | some page' =>
      rw [hlog] at hlast
      cases hlast
      exact getElem?_redo_of_image _ _ hlog
  | none =>
      rw [hlog, Option.none_or] at hlast
      rw [getElem?_redo_of_none _ hlog (List.getElem?_eq_some_iff.mp hlast).1, hlast]

theorem Cached.sameFile (h : Cached file log) (hsame : SameFile file file') : Cached file' log := by
  rw [hsame]
  exact ⟨h.slot, h.empty⟩

theorem Sized.sameFile (h : Sized file) (hsame : SameFile file file') : Sized file' := by
  rw [hsame]
  exact h

theorem Sized.read [Crc32Fast] (h : Sized file) (pageNo : ℕ) :
    Sized (stateAfter (readPageCaching pageNo) file) := by
  unfold stateAfter readPageCaching
  by_cases hnum : file.numPages ≤ pageNo
  · rw [if_pos hnum]
    exact h
  rw [if_neg hnum]
  cases file.pages[pageNo]?.join with
  | some page => exact h
  | none =>
      cases readPageFromDisk file.disk pageNo with
      | error e => exact h
      | ok page =>
          unfold Sized at h ⊢
          dsimp only
          rw [cachePage, List.length_set, List.length_append, List.length_replicate]
          omega

/-- Reading a page fills its slot from the disk. -/
theorem Cached.read [Crc32Fast] (h : Cached file log) (pageNo : ℕ) :
    Cached (stateAfter (readPageCaching pageNo) file) log := by
  unfold stateAfter readPageCaching
  by_cases hnum : file.numPages ≤ pageNo
  · rw [if_pos hnum]
    exact h
  rw [if_neg hnum]
  cases hslot : file.pages[pageNo]?.join with
  | some page => exact h
  | none =>
      cases hdisk : readPageFromDisk file.disk pageNo with
      | error e => exact h
      | ok page =>
          have hpage : file.disk[pageNo]? = some page := by
            unfold readPageFromDisk at hdisk
            cases hget : file.disk[pageNo]? with
            | none =>
                rw [hget] at hdisk
                cases hdisk
            | some page' =>
                rw [hget] at hdisk
                obtain ⟨_, -, hret⟩ := bind_eq_ok.mp hdisk
                cases hret
                rfl
          refine ⟨fun p page' hp => ?_, fun p hp => ?_⟩
          · dsimp only at hp
            rw [cachePage_getElem?] at hp
            by_cases heq : p = pageNo
            · rw [if_pos heq] at hp
              rw [heq, h.empty _ hslot, Option.none_or]
              exact hpage.trans hp
            · rw [if_neg heq] at hp
              exact h.slot p page' hp
          · dsimp only at hp
            rw [cachePage_getElem?] at hp
            by_cases heq : p = pageNo
            · rw [if_pos heq] at hp
              cases hp
            · rw [if_neg heq] at hp
              exact h.empty p hp

/-- What a commit does to the cache. -/
theorem commit_published {afterImages : List (ℕ × Page)}
    (hcommit : WriteGuard.commit file = .ok (afterImages, file')) :
    ∃ cache, file' = ⟨file.disk, bound file, cache, ⟨∅, 0⟩⟩ ∧ bound file < pageNoLimit ∧
      (afterImages.map Prod.fst).Nodup ∧ afterImages.foldlM (fun (cache : List (Option Page)) e =>
        if e.1 < cache.length then (.ok (cache.set e.1 (some e.2)) : Result _) else panic)
        (file.pages ++ List.replicate (bound file - file.pages.length) none) = .ok cache := by
  rw [WriteGuard.commit] at hcommit
  dsimp only at hcommit
  by_cases hlimit : pageNoLimit ≤ bound file
  · rw [if_pos hlimit] at hcommit
    cases hcommit
  rw [if_neg hlimit] at hcommit
  obtain ⟨cache, hcache, hret⟩ := bind_eq_ok.mp hcommit
  cases hret
  have hkeys : (file.writeState.dirty.entries.map fun e => (e.1, e.2)).map Prod.fst =
      file.writeState.dirty.keys := by
    rw [List.map_map]
    rfl
  exact ⟨cache, rfl, Nat.lt_of_not_le hlimit, hkeys ▸ file.writeState.dirty.keys_nodup, hcache⟩

theorem Sized.commit {afterImages : List (ℕ × Page)} (h : Sized file)
    (hcommit : WriteGuard.commit file = .ok (afterImages, file')) :
    Sized file' ∧ ∀ e ∈ afterImages, e.1 + 1 < pageNoLimit := by
  obtain ⟨cache, rfl, hlimit, -, hcache⟩ := commit_published hcommit
  obtain ⟨hlen, hin⟩ := publish_length hcache
  have hbound : file.numPages ≤ bound file := Nat.le_add_right _ _
  have hlength : (file.pages ++ List.replicate (bound file - file.pages.length) none).length =
      bound file := by
    unfold Sized at h
    rw [List.length_append, List.length_replicate]
    omega
  refine ⟨(hlen.trans hlength).le, fun e he => ?_⟩
  have hlt := hin e he
  omega

/-- The pages that a commit publishes. -/
theorem Cached.commit {afterImages : List (ℕ × Page)} (h : Cached file log)
    (hcommit : WriteGuard.commit file = .ok (afterImages, file')) :
    Cached file' (log ++ afterImages) := by
  obtain ⟨cache, rfl, -, hnodup, hcache⟩ := commit_published hcommit
  -- a slot that is not published keeps what it had
  have hkept : ∀ p : ℕ, RedoLog.image afterImages p = none →
      cache[p]?.join = file.pages[p]?.join := by
    intro p hp
    rw [(publish_getElem? hcache hnodup p).2 (image_eq_none_iff.mp hp), List.getElem?_append]
    by_cases hlen : p < file.pages.length
    · rw [if_pos hlen]
    · rw [if_neg hlen, List.getElem?_eq_none (Nat.le_of_not_lt hlen), List.getElem?_replicate]
      split <;> rfl
  have hput : ∀ (p : ℕ) page, RedoLog.image afterImages p = some page →
      cache[p]?.join = some page := fun p page himage =>
    (publish_getElem? hcache hnodup p).1 page (mem_of_image himage)
  refine ⟨fun p page hp => ?_, fun p hp => ?_⟩
  · dsimp only at hp ⊢
    rw [image_append]
    cases himage : RedoLog.image afterImages p with
    | some page' =>
        rw [hput p page' himage] at hp
        rw [Option.some_or]
        exact hp
    | none =>
        rw [hkept p himage] at hp
        rw [Option.none_or]
        exact h.slot p page hp
  · dsimp only at hp
    rw [image_append]
    cases himage : RedoLog.image afterImages p with
    | some page' =>
        rw [hput p page' himage] at hp
        cases hp
    | none =>
        rw [hkept p himage] at hp
        rw [Option.none_or]
        exact h.empty p hp

end

/-! ## Programs that keep the log -/

/-- States that hold the file, the log and the durability. -/
class Logging (σ : Type) where
  file : σ → PageFile
  wal : σ → Wal
  durability : σ → Durability

instance : Logging Db := ⟨Db.file, Db.wal, Db.durability⟩

instance : Logging Session := ⟨Session.file, Session.wal, Session.durability⟩

instance : Logging InTransaction := ⟨fun s => s.db.file, fun s => s.db.wal, fun s => s.db.durability⟩

/-- The error of an append to a log that has no room for its count. -/
def walFull : Fault := .error (.corruption "WAL entry count overflow")

section

variable [Crc32Fast]

/-- The log has the entries that were appended to it, and while it is `complete`, what is
cached can be redone from it. -/
structure LogOf (wal₀ : Wal) (complete : Prop) (file : PageFile) (wal : Wal) : Prop where
  sized : Sized file
  log : ∃ entries, Wal.Appended wal₀ entries wal ∧
    (∀ entry ∈ entries, entry.pageNo + 1 < pageNoLimit) ∧ (complete → Cached file (images entries))

theorem LogOf.mono {wal₀ wal : Wal} {p q : Prop} {file : PageFile} (h : LogOf wal₀ p file wal)
    (hpq : q → p) : LogOf wal₀ q file wal := by
  obtain ⟨entries, happ, hbounds, hcached⟩ := h.log
  exact ⟨h.sized, entries, happ, hbounds, fun hq => hcached (hpq hq)⟩

theorem LogOf.sameFile {wal₀ wal : Wal} {p : Prop} {file file' : PageFile}
    (h : LogOf wal₀ p file wal) (hsame : SameFile file file') : LogOf wal₀ p file' wal := by
  obtain ⟨entries, happ, hbounds, hcached⟩ := h.log
  exact ⟨h.sized.sameFile hsame, entries, happ, hbounds, fun hp => (hcached hp).sameFile hsame⟩

theorem LogOf.read {wal₀ wal : Wal} {p : Prop} {file : PageFile} (h : LogOf wal₀ p file wal)
    (pageNo : ℕ) : LogOf wal₀ p (stateAfter (readPageCaching pageNo) file) wal := by
  obtain ⟨entries, happ, hbounds, hcached⟩ := h.log
  exact ⟨h.sized.read pageNo, entries, happ, hbounds, fun hp => (hcached hp).read pageNo⟩

/-- Appending the images one by one: all are appended, or the log is full. -/
theorem appended_logImages {wal₀ wal : Wal} {tableId : UInt32} {log : List (ℕ × Page)}
    {entries : List WalEntry} (hstart : wal₀.Logs []) (happ : Wal.Appended wal₀ entries wal)
    (hpages : ∀ e ∈ log, e.1 < 2 ^ 32) :
    wp (logImages tableId log) (fun _ wal' => ∃ more, Wal.Appended wal₀ (entries ++ more) wal' ∧
        images more = log)
      (fun e wal' => e = walFull ∧ ∃ more, Wal.Appended wal₀ (entries ++ more) wal' ∧
        ∀ entry ∈ more, ∃ e ∈ log, entry.pageNo = e.1) wal := by
  induction log generalizing wal entries with
  | nil => exact ⟨[], by rwa [List.append_nil], rfl⟩
  | cons image log ih =>
      obtain ⟨pageNo, page⟩ := image
      have hlogs := happ.logs hstart
      unfold logImages
      rw [wp_bind, wp]
      cases hrun : Wal.appendPageImage tableId pageNo page wal with
      | error e wal' =>
          dsimp only
          unfold Wal.appendPageImage at hrun
          split at hrun
          · cases hrun
            exact ⟨rfl, [], by rwa [List.append_nil], fun _ hmem => absurd hmem List.not_mem_nil⟩
          · split at hrun
            · rename_i hseq
              have hlt := hlogs.holds.length_lt
              rw [hlogs.nextSequence, UInt64.toNat_add, UInt64.toNat_ofNat'] at hseq
              change (entries.length % 2 ^ 64 + 1) % 2 ^ 64 = 2 ^ 64 - 1 at hseq
              omega
            · cases hrun
      | ok seq wal' =>
          dsimp only
          have hpage : pageNo < 2 ^ 32 := hpages _ List.mem_cons_self
          refine (ih (happ.append hpage hrun) fun e he => hpages e (List.mem_cons_of_mem _ he)).mono
            ?_ ?_
          · rintro _ wal'' ⟨more, happ', hmore⟩
            refine ⟨⟨seq, tableId, pageNo, page⟩ :: more, ?_, ?_⟩
            · rwa [List.append_assoc] at happ'
            · rw [images, List.map_cons]
              exact congrArg ((pageNo, page) :: ·) hmore
          · rintro e wal'' ⟨rfl, more, happ', hmore⟩
            rw [List.append_assoc] at happ'
            refine ⟨rfl, _, happ', List.forall_mem_cons.mpr ⟨⟨_, List.mem_cons_self, rfl⟩, ?_⟩⟩
            intro entry hmem
            obtain ⟨e, he, heq⟩ := hmore entry hmem
            exact ⟨e, List.mem_cons_of_mem _ he, heq⟩

omit [Crc32Fast] in
theorem images_append (entries more : List WalEntry) :
    images (entries ++ more) = images entries ++ images more := by
  rw [images, images, images, List.map_append]

/-- **A commit logs what it publishes**, unless the log is full. -/
theorem LogOf.commitFile {wal₀ wal : Wal} {complete : Prop} {file : PageFile}
    {durability : Durability} (tableId : UInt32) (hstart : wal₀.Logs []) (hdur : durability ≠ .none)
    (h : LogOf wal₀ complete file wal) :
    match commitFile durability tableId file wal with
    | .ok (file', wal') => LogOf wal₀ complete file' wal'
    | .error (e, file', wal') => LogOf wal₀ (complete ∧ e ≠ walFull) file' wal' := by
  obtain ⟨entries, happ, hbounds, hcached⟩ := h.log
  unfold BoogyDb.commitFile
  cases hcommit : WriteGuard.commit file with
  | error e => exact h.mono And.left
  | ok r =>
      obtain ⟨afterImages, file'⟩ := r
      obtain ⟨hsized, hpages⟩ := h.sized.commit hcommit
      have hlog : wp (logImages tableId afterImages) _ _ wal := appended_logImages hstart happ
        fun e he => (Nat.lt_succ_self _).trans (hpages e he)
      dsimp only
      rw [if_neg hdur]
      rw [wp] at hlog
      cases hrun : logImages tableId afterImages wal with
      | ok u wal' =>
          rw [hrun] at hlog
          obtain ⟨more, happ', hmore⟩ := hlog
          have hmoreBounds : ∀ entry ∈ more, entry.pageNo + 1 < pageNoLimit := by
            intro entry hmem
            have himage : (entry.pageNo, entry.pageData) ∈ afterImages := by
              rw [← hmore]
              exact List.mem_map_of_mem hmem
            exact hpages _ himage
          refine ⟨hsized, entries ++ more, happ', fun entry hmem => ?_, fun hc => ?_⟩
          · exact (List.mem_append.mp hmem).elim (hbounds entry) (hmoreBounds entry)
          · rw [images_append, hmore]
            exact (hcached hc).commit hcommit
      | error e wal' =>
          rw [hrun] at hlog
          obtain ⟨rfl, more, happ', hmoreBounds⟩ := hlog
          refine ⟨hsized, entries ++ more, happ', fun entry hmem => ?_, fun hc => absurd rfl hc.2⟩
          refine (List.mem_append.mp hmem).elim (hbounds entry) fun hmem => ?_
          obtain ⟨e, he, heq⟩ := hmoreBounds entry hmem
          rw [heq]
          exact hpages e he

section

variable {wal₀ wal wal' : Wal} {complete : Prop} {file file' : PageFile} {durability : Durability}
  {tableId : UInt32}

theorem LogOf.commitFile_ok (h : LogOf wal₀ complete file wal) (hstart : wal₀.Logs [])
    (hdur : durability ≠ .none)
    (hrun : BoogyDb.commitFile durability tableId file wal = .ok (file', wal')) :
    LogOf wal₀ complete file' wal' := by
  have hcommit := h.commitFile tableId hstart hdur
  rw [hrun] at hcommit
  exact hcommit

theorem LogOf.commitFile_error {e : Fault} (h : LogOf wal₀ complete file wal)
    (hstart : wal₀.Logs []) (hdur : durability ≠ .none)
    (hrun : BoogyDb.commitFile durability tableId file wal = .error (e, file', wal')) :
    LogOf wal₀ (complete ∧ e ≠ walFull) file' wal' := by
  have hcommit := h.commitFile tableId hstart hdur
  rw [hrun] at hcommit
  exact hcommit

end

end

end BoogyDb
