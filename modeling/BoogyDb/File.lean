import BoogyDb.Page
import Mathlib.Data.List.AList
import Mathlib.Logic.Function.Basic

/-!
# The page file and its write state

`PageFile` is the data file, the shared page cache and the write state that the
`WriteGuard`s of one process take turns to hold.  The write state belongs to the
file: what one guard leaves in the overlay, the next one finds there.

Reading through a guard looks at the overlay, the cache and the disk in this
order (`view`).  The operations of the trees change a page file only by
`allocatePage`, `putPage` and `modifyPage`; each has a lemma that says what it
does to `view`, and nothing above this module looks at the three layers apart.
-/

namespace BoogyDb

/-- Page numbers and page counts are `u32`. -/
def pageNoLimit : ℕ := 2 ^ 32

structure WriteState where
  dirty : AList fun _ : ℕ => Page
  newPageCount : ℕ

structure PageFile where
  disk : List Page
  numPages : ℕ
  pages : List (Option Page)
  writeState : WriteState

/-- A guard is the file together with the write state it has locked. -/
abbrev WriteGuard := PageFile

namespace PageFile

def pageCount (file : PageFile) : ℕ := file.numPages

section

variable [Crc32Fast]

def readPageFromDisk (disk : List Page) (pageNo : ℕ) : Result Page :=
  match disk[pageNo]? with
  | none => fail (.io "failed to fill whole buffer")
  | some page => do
      page.validate
      pure page

/-- Read from the cache, or from the disk on a miss.  That a miss also fills the
cache is not visible (`readPageCaching_spec`). -/
def readPage (file : PageFile) (pageNo : ℕ) : Result Page :=
  if file.numPages ≤ pageNo then
    fail (.corruption s!"page {pageNo} out of range (have {file.numPages} pages)")
  else
    match file.pages[pageNo]?.join with
    | some page => .ok page
    | none => readPageFromDisk file.disk pageNo

/-- The cache with a page stored in it. -/
def cachePage (pages : List (Option Page)) (pageNo : ℕ) (page : Page) : List (Option Page) :=
  (pages ++ List.replicate (pageNo + 1 - pages.length) none).set pageNo (some page)

/-- `readPage` with what it does to the cache: a miss fills the slot of the page. -/
def readPageCaching (pageNo : ℕ) : StateResult PageFile Page := fun file =>
  if file.numPages ≤ pageNo then
    .error (.error (.corruption s!"page {pageNo} out of range (have {file.numPages} pages)")) file
  else
    match file.pages[pageNo]?.join with
    | some page => .ok page file
    | none =>
      match readPageFromDisk file.disk pageNo with
      | .ok page => .ok page { file with pages := cachePage file.pages pageNo page }
      | .error e => .error e file

omit [Crc32Fast] in
theorem cachePage_getElem? (pages : List (Option Page)) (pageNo : ℕ) (page : Page) (q : ℕ) :
    (cachePage pages pageNo page)[q]?.join =
      if q = pageNo then some page else pages[q]?.join := by
  have hlen : pageNo < (pages ++ List.replicate (pageNo + 1 - pages.length) none).length := by
    rw [List.length_append, List.length_replicate]
    omega
  rw [cachePage]
  by_cases hq : q = pageNo
  · rw [if_pos hq, hq, List.getElem?_set_self hlen]
    rfl
  · rw [if_neg hq, List.getElem?_set_ne (Ne.symm hq), List.getElem?_append]
    by_cases hin : q < pages.length
    · rw [if_pos hin]
    · rw [if_neg hin, List.getElem?_eq_none (Nat.le_of_not_lt hin), List.getElem?_replicate]
      split <;> rfl

/-- A read gives what `readPage` gives, and what it leaves in the cache no read can see. -/
theorem readPageCaching_spec (file : PageFile) (pageNo : ℕ) :
    match readPageCaching pageNo file with
    | .ok page file' => file.readPage pageNo = .ok page ∧ file'.readPage = file.readPage ∧
        file' = { file with pages := file'.pages } ∧
        ∀ (q : ℕ) (kept : Page), file.pages[q]?.join = some kept → file'.pages[q]?.join = some kept
    | .error e file' => file.readPage pageNo = .error e ∧ file' = file := by
  unfold readPageCaching
  by_cases hnum : file.numPages ≤ pageNo
  · rw [if_pos hnum]
    exact ⟨if_pos hnum, rfl⟩
  rw [if_neg hnum]
  cases hslot : file.pages[pageNo]?.join with
  | some page =>
      refine ⟨?_, rfl, rfl, fun _ _ h => h⟩
      rw [readPage, if_neg hnum, hslot]
  | none =>
      have hread : file.readPage pageNo = readPageFromDisk file.disk pageNo := by
        rw [readPage, if_neg hnum, hslot]
      cases hdisk : readPageFromDisk file.disk pageNo with
      | error e => exact ⟨hread.trans hdisk, rfl⟩
      | ok page =>
          refine ⟨hread.trans hdisk, ?_, rfl, fun q kept hkept => ?_⟩
          · funext q
            rw [readPage, readPage]
            dsimp only
            rw [cachePage_getElem?]
            by_cases hq : q = pageNo
            · rw [if_pos hq, hq, hslot, hdisk]
            · rw [if_neg hq]
          · dsimp only
            rw [cachePage_getElem?, if_neg, hkept]
            intro hq
            rw [hq, hslot] at hkept
            cases hkept

end

/-- `PageFile::open` on a data file of whole pages. -/
def «open» (disk : List Page) : PageFile where
  disk
  numPages := disk.length
  pages := List.replicate disk.length none
  writeState := ⟨∅, 0⟩

end PageFile

namespace WriteGuard

section

variable [Crc32Fast]

/-- `WriteGuard::read_page`, `read_page_cloned` and `read_page_inner`: the overlay first. -/
def view (guard : WriteGuard) (pageNo : ℕ) : Result Page :=
  match guard.writeState.dirty.lookup pageNo with
  | some page => .ok page
  | none => guard.readPage pageNo

def readPage (pageNo : ℕ) : StateResult WriteGuard Page := readOnly fun guard => guard.view pageNo

end

/-- One past the last page the guard can have allocated. -/
def bound (guard : WriteGuard) : ℕ := guard.numPages + guard.writeState.newPageCount

/-- Overwrite a page slot. -/
def putPage (pageNo : ℕ) (page : Page) : StateResult WriteGuard Unit := fun guard =>
  .ok () { guard with
    writeState.dirty := guard.writeState.dirty.insert pageNo page }

/-- A new page at the logical end of the file. -/
def allocatePage : StateResult WriteGuard ℕ := fun guard =>
  if pageNoLimit ≤ guard.bound then
    .error (.error (.corruption "page count overflow")) guard
  else if pageNoLimit ≤ guard.writeState.newPageCount + 1 then .error .overflow guard
  else
    .ok guard.bound { guard with
      writeState.newPageCount := guard.writeState.newPageCount + 1
      writeState.dirty := guard.writeState.dirty.insert guard.bound Page.zeroed }

section

variable [Crc32Fast]

/-- `write_page`: the page is copied into the overlay, and `f` is what the
caller then does through the reference. -/
def modifyPage (pageNo : ℕ) (f : Page → Result Page) : StateResult WriteGuard Unit := do
  let page ← readPage pageNo
  putPage pageNo page
  let page ← f page
  putPage pageNo page

end

/-- Publish the overlay to the cache; the after-images are what the caller logs. -/
def commit (guard : WriteGuard) : Result (List (ℕ × Page) × PageFile) := do
  let afterImages := guard.writeState.dirty.entries.map fun e => (e.1, e.2)
  if pageNoLimit ≤ guard.bound then overflowed
  else
    let cache := guard.pages ++ List.replicate (guard.bound - guard.pages.length) none
    let cache ← afterImages.foldlM (fun (cache : List (Option Page)) e =>
      if e.1 < cache.length then .ok (cache.set e.1 (some e.2)) else panic) cache
    pure (afterImages, { guard with
      numPages := guard.bound
      pages := cache
      writeState := ⟨∅, 0⟩ })

def discard (guard : WriteGuard) : PageFile := { guard with writeState := ⟨∅, 0⟩ }

/-! ## What the operations do to the view -/

section

open Wp

variable [Crc32Fast] {g g' : WriteGuard} {pageNo : ℕ} {page : Page} {α : Type}
  {E : Fault → WriteGuard → Prop}

/-- `g'` is `g` with `page` at `pageNo`, and the same pages in use. -/
structure Puts (g g' : WriteGuard) (pageNo : ℕ) (page : Page) : Prop where
  view_eq : g'.view = Function.update g.view pageNo (.ok page)
  numPages : g'.numPages = g.numPages
  newPageCount : g'.writeState.newPageCount = g.writeState.newPageCount
  dirty : ∀ q ∈ g'.writeState.dirty, q = pageNo ∨ q ∈ g.writeState.dirty

theorem Puts.bound (h : Puts g g' pageNo page) : g'.bound = g.bound := by
  rw [WriteGuard.bound, WriteGuard.bound, h.numPages, h.newPageCount]

theorem Puts.view_self (h : Puts g g' pageNo page) : g'.view pageNo = .ok page := by
  rw [h.view_eq, Function.update_self]

theorem Puts.view_of_ne (h : Puts g g' pageNo page) {q : ℕ} (hq : q ≠ pageNo) :
    g'.view q = g.view q := by
  rw [h.view_eq, Function.update_of_ne hq]

/-- Inserting into the overlay is seen at that page alone. -/
theorem view_insert (g : WriteGuard) (n pageNo : ℕ) (page : Page) :
    view { g with writeState := ⟨g.writeState.dirty.insert pageNo page, n⟩ } =
      Function.update g.view pageNo (.ok page) := by
  funext q
  by_cases hq : q = pageNo
  · subst hq
    rw [view, AList.lookup_insert, Function.update_self]
  · rw [view, AList.lookup_insert_ne hq, Function.update_of_ne hq]
    rfl

theorem putPage_puts (g : WriteGuard) (pageNo : ℕ) (page : Page) :
    ∃ g', putPage pageNo page g = .ok () g' ∧ Puts g g' pageNo page :=
  ⟨_, rfl, view_insert g _ pageNo page, rfl, rfl, fun _ hq => (AList.mem_insert _).mp hq⟩

theorem wp_putPage {Q : Unit → WriteGuard → Prop} (h : ∀ g', Puts g g' pageNo page → Q () g') :
    wp (putPage pageNo page) Q E g := by
  obtain ⟨g', hput, hputs⟩ := putPage_puts g pageNo page
  exact (wp_of_ok hput).mpr (h g' hputs)

theorem wp_readPage {Q : Page → WriteGuard → Prop} (hview : g.view pageNo = .ok page)
    (h : Q page g) : wp (readPage pageNo) Q E g := by
  rw [readPage, wp_readOnly, hview]
  exact h

theorem wp_modifyPage {Q : Unit → WriteGuard → Prop} {f : Page → Result Page} {page' : Page}
    (hview : g.view pageNo = .ok page) (hf : f page = .ok page')
    (h : ∀ g', Puts g g' pageNo page' → Q () g') : wp (modifyPage pageNo f) Q E g := by
  rw [modifyPage]
  refine (wp_readPage hview ?_).bind fun a s' hs => hs
  refine (wp_putPage fun g₁ hputs₁ => ?_).bind fun a s' hs => hs
  refine ((wp_lift_ok hf).mpr ?_).bind fun a s' hs => hs
  refine wp_putPage fun g₂ hputs₂ => h g₂ ⟨?_, hputs₂.numPages.trans hputs₁.numPages,
    hputs₂.newPageCount.trans hputs₁.newPageCount, fun q hq => ?_⟩
  · rw [hputs₂.view_eq, hputs₁.view_eq, Function.update_idem]
  · exact (hputs₂.dirty q hq).elim .inl (hputs₁.dirty q)

/-- `g'` is `g` with one page more, which is zeroed. -/
structure Allocates (g g' : WriteGuard) : Prop where
  view_eq : g'.view = Function.update g.view g.bound (.ok Page.zeroed)
  numPages : g'.numPages = g.numPages
  newPageCount : g'.writeState.newPageCount = g.writeState.newPageCount + 1
  bound_lt : g.bound < pageNoLimit
  dirty : ∀ q ∈ g'.writeState.dirty, q = g.bound ∨ q ∈ g.writeState.dirty

theorem Allocates.bound (h : Allocates g g') : g'.bound = g.bound + 1 := by
  rw [WriteGuard.bound, WriteGuard.bound, h.numPages, h.newPageCount, Nat.add_assoc]

theorem Allocates.view_of_ne (h : Allocates g g') {q : ℕ} (hq : q ≠ g.bound) :
    g'.view q = g.view q := by
  rw [h.view_eq, Function.update_of_ne hq]

/-- What an allocation fails with. -/
inductive AllocFault : Fault → Prop
  | tooManyPages : AllocFault (.error (.corruption "page count overflow"))
  | countOverflow : AllocFault .overflow

omit [Crc32Fast] in
theorem AllocFault.ne_panic {e : Fault} (h : AllocFault e) : e ≠ .panic := by
  cases h <;> simp

/-- Below the limits an allocation succeeds. -/
theorem wp_allocatePage_of_lt {Q : ℕ → WriteGuard → Prop} (hbound : g.bound < pageNoLimit)
    (hcount : g.writeState.newPageCount + 1 < pageNoLimit)
    (h : ∀ g', Allocates g g' → Q g.bound g') : wp allocatePage Q E g := by
  rw [wp, allocatePage, if_neg (Nat.not_le.mpr hbound), if_neg (Nat.not_le.mpr hcount)]
  exact h _ ⟨view_insert g _ g.bound Page.zeroed, rfl, rfl, hbound,
    fun _ hq => (AList.mem_insert _).mp hq⟩

/-- An allocation takes the next page, or leaves the guard alone and fails. -/
theorem wp_allocatePage {Q : ℕ → WriteGuard → Prop} (hok : ∀ g', Allocates g g' → Q g.bound g')
    (herr : pageNoLimit ≤ g.bound + 1 → ∀ e, AllocFault e → E e g) : wp allocatePage Q E g := by
  rw [wp, allocatePage]
  by_cases hlimit : pageNoLimit ≤ g.bound
  · rw [if_pos hlimit]
    exact herr (by omega) _ .tooManyPages
  by_cases hcount : pageNoLimit ≤ g.writeState.newPageCount + 1
  · rw [if_neg hlimit, if_pos hcount]
    refine herr ?_ _ .countOverflow
    rw [WriteGuard.bound]
    omega
  · rw [if_neg hlimit, if_neg hcount]
    exact hok _ ⟨view_insert g _ g.bound Page.zeroed, rfl, rfl, Nat.lt_of_not_le hlimit,
      fun _ hq => (AList.mem_insert _).mp hq⟩

end

/-! ## Publishing -/

/-- The loop that stores the overlay in the cache: a stored page wins, every
other slot keeps what it had. -/
theorem publish_getElem? {entries : List (ℕ × Page)} {cache cache' : List (Option Page)}
    (h : entries.foldlM (fun (cache : List (Option Page)) e =>
      if e.1 < cache.length then (.ok (cache.set e.1 (some e.2)) : Result _) else panic) cache =
        .ok cache')
    (hnodup : (entries.map Prod.fst).Nodup) (q : ℕ) :
    (∀ page, (q, page) ∈ entries → cache'[q]?.join = some page) ∧
      (q ∉ entries.map Prod.fst → cache'[q]?.join = cache[q]?.join) := by
  induction entries generalizing cache with
  | nil =>
      cases h
      simp
  | cons e entries ih =>
      obtain ⟨he, hnodup⟩ := List.nodup_cons.mp hnodup
      rw [List.foldlM_cons] at h
      obtain ⟨cache₁, hset, hrest⟩ := bind_eq_ok.mp h
      by_cases hlt : e.1 < cache.length
      · rw [if_pos hlt] at hset
        cases hset
        obtain ⟨hin, hout⟩ := ih hrest hnodup
        constructor
        · intro page hmem
          rcases List.mem_cons.mp hmem with heq | hmem
          · cases heq
            rw [hout he, List.getElem?_set_self hlt]
            rfl
          · exact hin page hmem
        · intro hnot
          rw [List.map_cons, List.mem_cons, not_or] at hnot
          rw [hout hnot.2, List.getElem?_set_ne fun h => hnot.1 h.symm]
      · rw [if_neg hlt] at hset
        cases hset

/-- Publishing needs a slot for each page, and makes none. -/
theorem publish_length {entries : List (ℕ × Page)} {cache cache' : List (Option Page)}
    (h : entries.foldlM (fun (cache : List (Option Page)) e =>
      if e.1 < cache.length then (.ok (cache.set e.1 (some e.2)) : Result _) else panic) cache =
        .ok cache') :
    cache'.length = cache.length ∧ ∀ e ∈ entries, e.1 < cache.length := by
  induction entries generalizing cache with
  | nil =>
      cases h
      simp
  | cons e entries ih =>
      rw [List.foldlM_cons] at h
      obtain ⟨cache₁, hset, hrest⟩ := bind_eq_ok.mp h
      by_cases hlt : e.1 < cache.length
      · rw [if_pos hlt] at hset
        cases hset
        obtain ⟨hlen, hin⟩ := ih hrest
        rw [List.length_set] at hlen hin
        exact ⟨hlen, List.forall_mem_cons.mpr ⟨hlt, hin⟩⟩
      · rw [if_neg hlt] at hset
        cases hset

/-- **After a commit the shared cache shows what the guard showed.** -/
theorem commit_readPage [Crc32Fast] {g : WriteGuard} {file : PageFile}
    {afterImages : List (ℕ × Page)} (h : g.commit = .ok (afterImages, file)) {q : ℕ} {page : Page}
    (hq : q < g.bound) (hview : g.view q = .ok page) : file.readPage q = .ok page := by
  rw [commit] at h
  dsimp only at h
  by_cases hlimit : pageNoLimit ≤ g.bound
  · rw [if_pos hlimit] at h
    cases h
  rw [if_neg hlimit] at h
  obtain ⟨cache, hcache, hret⟩ := bind_eq_ok.mp h
  cases hret
  have hkeys : (g.writeState.dirty.entries.map fun e => (e.1, e.2)).map Prod.fst =
      g.writeState.dirty.keys := by
    rw [List.map_map]
    rfl
  obtain ⟨hin, hout⟩ := publish_getElem? hcache (hkeys ▸ g.writeState.dirty.keys_nodup) q
  rw [PageFile.readPage, if_neg (by simpa using hq)]
  cases hdirty : g.writeState.dirty.lookup q with
  | some page' =>
      have hpage : page' = page := by
        rw [view, hdirty] at hview
        exact Except.ok.inj hview
      have hmem : (q, page) ∈ g.writeState.dirty.entries.map fun e => (e.1, e.2) := by
        rw [hpage] at hdirty
        exact List.mem_map.mpr ⟨⟨q, page⟩, AList.mem_lookup_iff.mp hdirty, rfl⟩
      rw [hin page hmem]
  | none =>
      have hnot : q ∉ g.writeState.dirty := by
        rw [← AList.lookup_isSome, hdirty]
        simp
      rw [view, hdirty] at hview
      dsimp only at hview
      rw [PageFile.readPage] at hview
      by_cases hnum : g.numPages ≤ q
      · rw [if_pos hnum] at hview
        cases hview
      rw [if_neg hnum] at hview
      have hslot : cache[q]?.join = g.pages[q]?.join := by
        rw [hout (by rwa [hkeys]), List.getElem?_append]
        by_cases hlen : q < g.pages.length
        · rw [if_pos hlen]
        · rw [if_neg hlen, List.getElem?_eq_none (Nat.le_of_not_lt hlen),
            List.getElem?_replicate]
          split <;> rfl
      dsimp only
      rw [hslot]
      exact hview

/-- Every page of the overlay is a page of the file. -/
def DirtyBelow (g : WriteGuard) : Prop := ∀ q ∈ g.writeState.dirty, q < g.bound

theorem Puts.dirtyBelow [Crc32Fast] {g g' : WriteGuard} {p : ℕ} {page : Page}
    (hputs : Puts g g' p page) (h : DirtyBelow g) (hp : p < g.bound) : DirtyBelow g' := by
  intro q hq
  rw [hputs.bound]
  rcases hputs.dirty q hq with rfl | hq
  · exact hp
  · exact h q hq

theorem Allocates.dirtyBelow [Crc32Fast] {g g' : WriteGuard} (halloc : Allocates g g')
    (h : DirtyBelow g) : DirtyBelow g' := by
  intro q hq
  rw [halloc.bound]
  rcases halloc.dirty q hq with rfl | hq
  · exact Nat.lt_succ_self _
  · exact (h q hq).trans (Nat.lt_succ_self _)

/-- A commit succeeds below the limit. -/
theorem commit_ok {g : WriteGuard} (hdirty : DirtyBelow g) (hlimit : g.bound < pageNoLimit) :
    ∃ published : List (ℕ × Page) × PageFile, g.commit = .ok published := by
  have hstore : ∀ (entries : List (ℕ × Page)) (cache : List (Option Page)),
      (∀ e ∈ entries, e.1 < cache.length) →
      ∃ cache', entries.foldlM (fun (cache : List (Option Page)) e =>
        if e.1 < cache.length then (.ok (cache.set e.1 (some e.2)) : Result _) else panic) cache =
          .ok cache' := by
    intro entries
    induction entries with
    | nil => exact fun cache _ => ⟨cache, rfl⟩
    | cons e entries ih =>
        intro cache hlt
        rw [List.forall_mem_cons] at hlt
        obtain ⟨cache', hcache'⟩ := ih (cache.set e.1 (some e.2)) fun x hx => by
          rw [List.length_set]
          exact hlt.2 x hx
        exact ⟨cache', by rw [List.foldlM_cons, if_pos hlt.1, ok_bind, hcache']⟩
  obtain ⟨cache, hcache⟩ := hstore (g.writeState.dirty.entries.map fun e => (e.1, e.2))
    (g.pages ++ List.replicate (g.bound - g.pages.length) none) fun e he => by
      obtain ⟨x, hx, rfl⟩ := List.mem_map.mp he
      have hlt := hdirty x.1 (AList.mem_keys.mpr (List.mem_map_of_mem hx))
      rw [List.length_append, List.length_replicate]
      omega
  rw [commit]
  dsimp only
  rw [if_neg (Nat.not_le.mpr hlimit), hcache, ok_bind]
  exact ⟨_, rfl⟩

theorem commit_eq {g : WriteGuard} {file : PageFile} {afterImages : List (ℕ × Page)}
    (h : g.commit = .ok (afterImages, file)) :
    file.numPages = g.bound ∧ file.writeState = ⟨∅, 0⟩ ∧ file.disk = g.disk := by
  rw [commit] at h
  dsimp only at h
  by_cases hlimit : pageNoLimit ≤ g.bound
  · rw [if_pos hlimit] at h
    cases h
  rw [if_neg hlimit] at h
  obtain ⟨cache, -, hret⟩ := bind_eq_ok.mp h
  cases hret
  exact ⟨rfl, rfl, rfl⟩

/-- The next guard starts from what the last one published. -/
theorem commit_view [Crc32Fast] {g : WriteGuard} {file : PageFile}
    {afterImages : List (ℕ × Page)} (h : g.commit = .ok (afterImages, file)) {q : ℕ} {page : Page}
    (hq : q < g.bound) (hview : g.view q = .ok page) : view file q = .ok page := by
  obtain ⟨-, hstate, -⟩ := commit_eq h
  have hlookup : file.writeState.dirty.lookup q = none := by
    rw [hstate]
    rfl
  rw [view, hlookup]
  exact commit_readPage h hq hview

theorem commit_bound {g : WriteGuard} {file : PageFile} {afterImages : List (ℕ × Page)}
    (h : g.commit = .ok (afterImages, file)) : bound file = g.bound := by
  obtain ⟨hnum, hstate, -⟩ := commit_eq h
  rw [bound, hstate, hnum, Nat.add_zero]

/-- With nothing in the overlay the guard reads what the file holds. -/
theorem view_eq_readPage [Crc32Fast] {file : PageFile} (h : file.writeState = ⟨∅, 0⟩) :
    view file = file.readPage := by
  funext p
  rw [view, h]
  rfl

theorem bound_eq_pageCount {file : PageFile} (h : file.writeState = ⟨∅, 0⟩) :
    bound file = file.pageCount := by
  rw [bound, h, PageFile.pageCount, Nat.add_zero]

end WriteGuard

end BoogyDb
