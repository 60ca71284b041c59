import BoogyDb.DbRuns

/-!
# Sections of a transaction compose

A transaction takes the write guard for each of its calls, puts its pages into the
overlay, and takes them out again.  Here a closure over the guard is a program over the
calls that a `WriteGuard` has (`GuardProgram`), and reads fill the shared cache as they do
in the engine.  `sections_compose` says that closures that run in sections of their own,
between which others read pages, see and allocate the same pages as under one guard, and
that the commit publishes the same.

`Alike` relates the two page files: they differ in what is cached, and no read can tell.
-/

namespace BoogyDb

open Wp WriteGuard

section

variable [Crc32Fast]

/-! ## Page files that differ in their caches -/

/-- Two page files between which no read can tell. -/
structure Alike (f f' : PageFile) : Prop where
  disk : f'.disk = f.disk
  numPages : f'.numPages = f.numPages
  writeState : f'.writeState = f.writeState
  readPage : f'.readPage = f.readPage
  /-- The cache has no other pages behind the end of the file. -/
  beyond : ∀ q, f.numPages ≤ q → f'.pages[q]?.join = f.pages[q]?.join
  length : max f'.pages.length f.numPages = max f.pages.length f.numPages

variable {f f' f'' : PageFile} {g g' : WriteGuard} {α : Type}

theorem Alike.refl (f : PageFile) : Alike f f := ⟨rfl, rfl, rfl, rfl, fun _ _ => rfl, rfl⟩

theorem Alike.symm (h : Alike f f') : Alike f' f where
  disk := h.disk.symm
  numPages := h.numPages.symm
  writeState := h.writeState.symm
  readPage := h.readPage.symm
  beyond q hq := (h.beyond q (h.numPages ▸ hq)).symm
  length := by
    rw [h.numPages]
    exact h.length.symm

theorem Alike.trans (h : Alike f f') (h' : Alike f' f'') : Alike f f'' where
  disk := h'.disk.trans h.disk
  numPages := h'.numPages.trans h.numPages
  writeState := h'.writeState.trans h.writeState
  readPage := h'.readPage.trans h.readPage
  beyond q hq := (h'.beyond q (h.numPages.symm ▸ hq)).trans (h.beyond q hq)
  length := by
    have hlength := h'.length
    rw [h.numPages] at hlength
    exact hlength.trans h.length

/-- The same change of the write state. -/
theorem Alike.withState (h : Alike f f') (state : WriteState) :
    Alike { f with writeState := state } { f' with writeState := state } :=
  ⟨h.disk, h.numPages, rfl, h.readPage, h.beyond, h.length⟩

theorem Alike.view (h : Alike g g') : g'.view = g.view := by
  funext pageNo
  unfold WriteGuard.view
  rw [h.writeState, h.readPage]

theorem Alike.bound (h : Alike g g') : g'.bound = g.bound := by
  unfold WriteGuard.bound
  rw [h.numPages, h.writeState]

/-- What a program returns. -/
def resultOf {σ : Type} (x : StateResult σ α) (s : σ) : Result α :=
  match x s with
  | .ok a _ => .ok a
  | .error e _ => .error e

theorem resultOf_readPageCaching (file : PageFile) (pageNo : ℕ) :
    resultOf (PageFile.readPageCaching pageNo) file = file.readPage pageNo := by
  have hspec := PageFile.readPageCaching_spec file pageNo
  unfold resultOf
  cases hread : PageFile.readPageCaching pageNo file with
  | ok page file' =>
      rw [hread] at hspec
      exact hspec.1.symm
  | error e file' =>
      rw [hread] at hspec
      exact hspec.1.symm

omit [Crc32Fast] in
theorem length_cachePage (pages : List (Option Page)) (pageNo : ℕ) (page : Page) :
    (PageFile.cachePage pages pageNo page).length = max pages.length (pageNo + 1) := by
  unfold PageFile.cachePage
  rw [List.length_set, List.length_append, List.length_replicate]
  omega

/-- A read fills the cache with what was on the disk. -/
theorem alike_readPageCaching (file : PageFile) (pageNo : ℕ) :
    Alike file (stateAfter (PageFile.readPageCaching pageNo) file) := by
  have hspec := PageFile.readPageCaching_spec file pageNo
  unfold stateAfter
  cases hread : PageFile.readPageCaching pageNo file with
  | error e file' =>
      rw [hread] at hspec
      rw [show file' = file from hspec.2]
      exact .refl file
  | ok page file' =>
      rw [hread] at hspec
      obtain ⟨-, hpages, -⟩ := hspec
      unfold PageFile.readPageCaching at hread
      split at hread
      · cases hread
      · rename_i hlt
        split at hread
        · cases hread
          exact .refl file
        · split at hread
          · cases hread
            refine ⟨rfl, rfl, rfl, hpages, fun q hq => ?_, ?_⟩
            · dsimp only
              rw [PageFile.cachePage_getElem?, if_neg]
              omega
            · dsimp only
              rw [length_cachePage]
              omega
          · cases hread

/-- Other threads read pages. -/
def readOthers (pageNos : List ℕ) (file : PageFile) : PageFile :=
  pageNos.foldl (fun file pageNo => stateAfter (PageFile.readPageCaching pageNo) file) file

theorem alike_readOthers (pageNos : List ℕ) (file : PageFile) :
    Alike file (readOthers pageNos file) := by
  induction pageNos generalizing file with
  | nil => exact .refl file
  | cons pageNo pageNos ih => exact (alike_readPageCaching file pageNo).trans (ih _)

/-! ## Closures over a write guard -/

/-- The calls of a `WriteGuard`, and a read of the page file behind it. -/
inductive GuardCall
  | readPage (pageNo : ℕ)
  /-- `write_page`, and what the caller does to the page. -/
  | writePage (pageNo : ℕ) (change : Page → Page)
  | allocatePage
  | putPage (pageNo : ℕ) (page : Page)
  | peekDirty (pageNo : ℕ)
  | injectDirty (pages : AList fun _ : ℕ => Page)
  | drainDirty
  | newPageCount
  | setNewPageCount (count : ℕ)
  | readPageFile (pageNo : ℕ)

inductive GuardReply
  | page (result : Result Page)
  | pageNo (result : Result ℕ)
  | done (result : Result Unit)
  | peeked (page : Option Page)
  | drained (pages : AList fun _ : ℕ => Page)
  | count (count : ℕ)

/-- A read through the guard, which fills the cache. -/
def readGuard (pageNo : ℕ) : StateResult WriteGuard Page := fun guard =>
  match guard.writeState.dirty.lookup pageNo with
  | some page => .ok page guard
  | none => PageFile.readPageCaching pageNo guard

def GuardCall.perform : GuardCall → WriteGuard → GuardReply × WriteGuard
  | .readPage pageNo, guard =>
      (.page (resultOf (readGuard pageNo) guard), stateAfter (readGuard pageNo) guard)
  | .writePage pageNo change, guard =>
      let write : StateResult WriteGuard Unit := do
        let page ← readGuard pageNo
        WriteGuard.putPage pageNo (change page)
      (.done (resultOf write guard), stateAfter write guard)
  | .allocatePage, guard =>
      (.pageNo (resultOf WriteGuard.allocatePage guard), stateAfter WriteGuard.allocatePage guard)
  | .putPage pageNo page, guard =>
      (.done (resultOf (WriteGuard.putPage pageNo page) guard),
        stateAfter (WriteGuard.putPage pageNo page) guard)
  | .peekDirty pageNo, guard => (.peeked (guard.writeState.dirty.lookup pageNo), guard)
  | .injectDirty pages, guard => (.done (.ok ()), WriteGuard.injectDirty pages guard)
  | .drainDirty, guard =>
      (.drained guard.writeState.dirty, { guard with writeState.dirty := ∅ })
  | .newPageCount, guard => (.count guard.writeState.newPageCount, guard)
  | .setNewPageCount count, guard => (.done (.ok ()), WriteGuard.setNewPageCount count guard)
  | .readPageFile pageNo, guard =>
      (.page (resultOf (PageFile.readPageCaching pageNo) guard),
        stateAfter (PageFile.readPageCaching pageNo) guard)

/-- A closure over the write guard.  It may do with a reply what it likes. -/
inductive GuardProgram (α : Type)
  | done (result : Result α)
  | call (call : GuardCall) (next : GuardReply → GuardProgram α)

/-- What a closure returned, and what its calls answered. -/
structure Outcome (α : Type) where
  result : Result α
  replies : List GuardReply

def panicOf {β : Type} : Result β → Option Fault
  | .error e => if e.isPanic then some e else none
  | .ok _ => none

/-- The panic of a call, if it panicked. -/
def GuardReply.panic? : GuardReply → Option Fault
  | .page result => panicOf result
  | .pageNo result => panicOf result
  | .done result => panicOf result
  | _ => none

/-- A call that panics ends the closure. -/
def GuardProgram.run : GuardProgram α → WriteGuard → Outcome α × WriteGuard
  | .done result, guard => (⟨result, []⟩, guard)
  | .call c next, guard =>
    let (reply, guard) := c.perform guard
    match reply.panic? with
    | some e => (⟨.error e, [reply]⟩, guard)
    | none =>
      let (outcome, guard) := (next reply).run guard
      ({ outcome with replies := reply :: outcome.replies }, guard)

/-! ### Programs that cannot tell page files apart -/

/-- The program does the same on two guards that no read can tell apart. -/
abbrev Agrees {β : Type} (x : StateResult WriteGuard β) : Prop := Respects Alike x

omit [Crc32Fast] in
theorem endsAlike_iff {σ β : Type} {R : σ → σ → Prop} {x : StateResult σ β} {s s' : σ} :
    EndsAlike R (x s) (x s') ↔
      resultOf x s' = resultOf x s ∧ R (stateAfter x s) (stateAfter x s') := by
  unfold resultOf stateAfter
  constructor
  · intro h
    generalize x s = r at h ⊢
    generalize x s' = r' at h ⊢
    cases h with
    | ok h => exact ⟨rfl, h⟩
    | error h => exact ⟨rfl, h⟩
  · rintro ⟨hresult, hstate⟩
    cases hs : x s with
    | ok a t =>
        cases hs' : x s' with
        | ok a' t' =>
            rw [hs, hs'] at hresult hstate
            obtain rfl : a' = a := Except.ok.inj hresult
            exact .ok hstate
        | error e' t' =>
            rw [hs, hs'] at hresult
            cases hresult
    | error e t =>
        cases hs' : x s' with
        | ok a' t' =>
            rw [hs, hs'] at hresult
            cases hresult
        | error e' t' =>
            rw [hs, hs'] at hresult hstate
            obtain rfl : e' = e := Except.error.inj hresult
            exact .error hstate

namespace Agrees

theorem readPageCaching (pageNo : ℕ) : Agrees (PageFile.readPageCaching pageNo) := by
  intro g g' h
  refine endsAlike_iff.mpr ⟨?_, (alike_readPageCaching g pageNo).symm.trans
    (h.trans (alike_readPageCaching g' pageNo))⟩
  rw [resultOf_readPageCaching, resultOf_readPageCaching, h.readPage]

theorem readGuard (pageNo : ℕ) : Agrees (readGuard pageNo) := by
  intro g g' h
  have hread := readPageCaching pageNo g g' h
  unfold BoogyDb.readGuard
  rw [h.writeState]
  cases g.writeState.dirty.lookup pageNo with
  | some page => exact .ok h
  | none => exact hread

theorem putPage (pageNo : ℕ) (page : Page) : Agrees (WriteGuard.putPage pageNo page) := by
  intro g g' h
  refine .ok ?_
  rw [h.writeState]
  exact h.withState _

theorem allocatePage : Agrees WriteGuard.allocatePage := by
  intro g g' h
  have hbound : WriteGuard.bound g' = WriteGuard.bound g := h.bound
  have hcount' : g'.writeState.newPageCount = g.writeState.newPageCount := by rw [h.writeState]
  by_cases hlimit : pageNoLimit ≤ WriteGuard.bound g
  · have hg : WriteGuard.allocatePage g = .error _ g := if_pos hlimit
    have hg' : WriteGuard.allocatePage g' = .error _ g' := if_pos (hbound ▸ hlimit)
    rw [hg, hg']
    exact .error h
  by_cases hcount : pageNoLimit ≤ g.writeState.newPageCount + 1
  · have hg : WriteGuard.allocatePage g = .error .overflow g :=
      (if_neg hlimit).trans (if_pos hcount)
    have hg' : WriteGuard.allocatePage g' = .error .overflow g' :=
      (if_neg (hbound ▸ hlimit)).trans (if_pos (hcount' ▸ hcount))
    rw [hg, hg']
    exact .error h
  · have hg : WriteGuard.allocatePage g = .ok _ _ := (if_neg hlimit).trans (if_neg hcount)
    have hg' : WriteGuard.allocatePage g' = .ok _ _ :=
      (if_neg (hbound ▸ hlimit)).trans (if_neg (hcount' ▸ hcount))
    rw [hg, hg', hbound, h.writeState]
    exact .ok (h.withState _)

end Agrees

/-- **A call answers the same** on two guards that no read can tell apart. -/
theorem Alike.perform (h : Alike g g') (call : GuardCall) :
    (call.perform g').1 = (call.perform g).1 ∧ Alike (call.perform g).2 (call.perform g').2 := by
  cases call with
  | readPage pageNo =>
      obtain ⟨hresult, halike⟩ := endsAlike_iff.mp (Agrees.readGuard pageNo g g' h)
      exact ⟨congrArg GuardReply.page hresult, halike⟩
  | writePage pageNo change =>
      have hwrite : Agrees (readGuard pageNo >>= fun page =>
          WriteGuard.putPage pageNo (change page)) :=
        (Agrees.readGuard pageNo).bind fun page => Agrees.putPage pageNo (change page)
      obtain ⟨hresult, halike⟩ := endsAlike_iff.mp (hwrite g g' h)
      exact ⟨congrArg GuardReply.done hresult, halike⟩
  | allocatePage =>
      obtain ⟨hresult, halike⟩ := endsAlike_iff.mp (Agrees.allocatePage g g' h)
      exact ⟨congrArg GuardReply.pageNo hresult, halike⟩
  | putPage pageNo page =>
      obtain ⟨hresult, halike⟩ := endsAlike_iff.mp (Agrees.putPage pageNo page g g' h)
      exact ⟨congrArg GuardReply.done hresult, halike⟩
  | peekDirty pageNo =>
      refine ⟨?_, h⟩
      change GuardReply.peeked (g'.writeState.dirty.lookup pageNo) = _
      rw [h.writeState]
      rfl
  | injectDirty pages =>
      refine ⟨rfl, ?_⟩
      change Alike (WriteGuard.injectDirty pages g) (WriteGuard.injectDirty pages g')
      unfold WriteGuard.injectDirty
      rw [h.writeState]
      exact h.withState _
  | drainDirty =>
      change GuardReply.drained g'.writeState.dirty = .drained g.writeState.dirty ∧
        Alike { g with writeState.dirty := ∅ } { g' with writeState.dirty := ∅ }
      rw [h.writeState]
      exact ⟨rfl, h.withState _⟩
  | newPageCount =>
      refine ⟨?_, h⟩
      change GuardReply.count g'.writeState.newPageCount = _
      rw [h.writeState]
      rfl
  | setNewPageCount count =>
      refine ⟨rfl, ?_⟩
      change Alike (WriteGuard.setNewPageCount count g) (WriteGuard.setNewPageCount count g')
      unfold WriteGuard.setNewPageCount
      rw [h.writeState]
      exact h.withState _
  | readPageFile pageNo =>
      obtain ⟨hresult, halike⟩ := endsAlike_iff.mp (Agrees.readPageCaching pageNo g g' h)
      exact ⟨congrArg GuardReply.page hresult, halike⟩

/-- **A closure sees the same** on two guards that no read can tell apart. -/
theorem Alike.run (h : Alike g g') (p : GuardProgram α) :
    (p.run g').1 = (p.run g).1 ∧ Alike (p.run g).2 (p.run g').2 := by
  induction p generalizing g g' with
  | done result => exact ⟨rfl, h⟩
  | call c next ih =>
      obtain ⟨hreply, halike⟩ := h.perform c
      cases hg : c.perform g with
      | mk reply s =>
          cases hg' : c.perform g' with
          | mk reply' s' =>
              rw [hg, hg'] at hreply halike
              obtain rfl : reply' = reply := hreply
              obtain ⟨houtcome, hrest⟩ := ih reply' halike
              unfold GuardProgram.run
              rw [hg, hg']
              dsimp only
              cases reply'.panic? with
              | some e => exact ⟨rfl, halike⟩
              | none =>
                  dsimp only at houtcome ⊢
                  rw [houtcome]
                  exact ⟨rfl, hrest⟩

/-! ### Closures that leave the overlay to the section -/

/-- The calls by which a section takes pages in and out are not for closures. -/
def GuardCall.Plain : GuardCall → Prop
  | .injectDirty _ | .drainDirty | .setNewPageCount _ => False
  | _ => True

def GuardProgram.Plain : GuardProgram α → Prop
  | .done _ => True
  | .call c next => c.Plain ∧ ∀ reply, (next reply).Plain

/-- A guard that has new pages has pages in its overlay. -/
def NewInOverlay (guard : WriteGuard) : Prop :=
  guard.writeState.dirty.entries.isEmpty = true → guard.writeState.newPageCount = 0

theorem writeState_readPageCaching (guard : WriteGuard) (pageNo : ℕ) :
    (stateAfter (PageFile.readPageCaching pageNo) guard).writeState = guard.writeState :=
  (alike_readPageCaching guard pageNo).writeState

theorem writeState_readGuard (guard : WriteGuard) (pageNo : ℕ) :
    (stateAfter (readGuard pageNo) guard).writeState = guard.writeState := by
  have hread := writeState_readPageCaching guard pageNo
  unfold readGuard stateAfter at *
  dsimp only
  cases guard.writeState.dirty.lookup pageNo with
  | some page => rfl
  | none => exact hread

omit [Crc32Fast] in
theorem NewInOverlay.of_writeState (h : NewInOverlay g) (hstate : g'.writeState = g.writeState) :
    NewInOverlay g' := by
  unfold NewInOverlay
  rw [hstate]
  exact h

theorem NewInOverlay.perform (h : NewInOverlay g) {call : GuardCall} (hplain : call.Plain) :
    NewInOverlay (call.perform g).2 := by
  cases call with
  | readPage pageNo => exact h.of_writeState (writeState_readGuard g pageNo)
  | writePage pageNo change =>
      change NewInOverlay (stateAfter (readGuard pageNo >>= fun page =>
        WriteGuard.putPage pageNo (change page)) g)
      have hread := writeState_readGuard g pageNo
      unfold stateAfter at hread ⊢
      cases hg : readGuard pageNo g with
      | ok page s =>
          rw [run_bind_ok hg]
          intro hempty
          cases hempty
      | error e s =>
          rw [run_bind_error hg]
          rw [hg] at hread
          exact h.of_writeState hread
  | allocatePage =>
      change NewInOverlay (stateAfter WriteGuard.allocatePage g)
      unfold stateAfter
      cases hg : WriteGuard.allocatePage g with
      | ok pageNo s =>
          unfold WriteGuard.allocatePage at hg
          split at hg
          · cases hg
          · split at hg
            · cases hg
            · cases hg
              intro hempty
              cases hempty
      | error e s =>
          unfold WriteGuard.allocatePage at hg
          split at hg
          · cases hg
            exact h
          · split at hg
            · cases hg
              exact h
            · cases hg
  | putPage pageNo page =>
      intro hempty
      cases hempty
  | peekDirty pageNo => exact h
  | injectDirty pages => exact hplain.elim
  | drainDirty => exact hplain.elim
  | newPageCount => exact h
  | setNewPageCount count => exact hplain.elim
  | readPageFile pageNo => exact h.of_writeState (writeState_readPageCaching g pageNo)

theorem NewInOverlay.run (h : NewInOverlay g) {p : GuardProgram α} (hplain : p.Plain) :
    NewInOverlay (p.run g).2 := by
  induction p generalizing g with
  | done result => exact h
  | call c next ih =>
      have hcall := h.perform hplain.1
      cases hg : c.perform g with
      | mk reply s =>
          rw [hg] at hcall
          have hrest := ih reply hcall (hplain.2 reply)
          unfold GuardProgram.run
          rw [hg]
          dsimp only
          cases reply.panic? with
          | some e => exact hcall
          | none => exact hrest

/-! ## Commits -/

/-- Both commits publish the same pages and leave files that read the same, or fail alike. -/
def SameCommit (g g' : WriteGuard) : Prop :=
  match g.commit, g'.commit with
  | .ok (images, file), .ok (images', file') =>
      images' = images ∧ file'.pageCount = file.pageCount ∧ file'.readPage = file.readPage
  | .error e, .error e' => e' = e
  | _, _ => False

/-- What a read of a page of the file finds in the cache, or on the disk. -/
def slotRead (disk : List Page) (pages : List (Option Page)) (pageNo : ℕ) : Result Page :=
  match pages[pageNo]?.join with
  | some page => .ok page
  | none => PageFile.readPageFromDisk disk pageNo

theorem Alike.slotRead (h : Alike f f') (q : ℕ) :
    slotRead f.disk f'.pages q = slotRead f.disk f.pages q := by
  by_cases hq : f.numPages ≤ q
  · unfold BoogyDb.slotRead
    rw [h.beyond q hq]
  · have hread := congrFun h.readPage q
    unfold PageFile.readPage at hread
    rw [h.numPages, if_neg hq, if_neg hq, h.disk] at hread
    exact hread

omit [Crc32Fast] in
theorem join_append_none (pages : List (Option Page)) (n q : ℕ) :
    (pages ++ List.replicate n none)[q]?.join = pages[q]?.join := by
  rw [List.getElem?_append]
  by_cases hq : q < pages.length
  · rw [if_pos hq]
  · rw [if_neg hq, List.getElem?_eq_none (Nat.le_of_not_lt hq), List.getElem?_replicate]
    split <;> rfl

/-- The loop of `commit` that stores the after-images in the cache. -/
def storeImages (images : List (ℕ × Page)) (cache : List (Option Page)) :
    Result (List (Option Page)) :=
  images.foldlM (fun (cache : List (Option Page)) e =>
    if e.1 < cache.length then .ok (cache.set e.1 (some e.2)) else panic) cache

omit [Crc32Fast] in
theorem commit_eq_storeImages (g : WriteGuard) : WriteGuard.commit g =
    if pageNoLimit ≤ WriteGuard.bound g then overflowed
    else storeImages (g.writeState.dirty.entries.map fun e => (e.1, e.2))
        (g.pages ++ List.replicate (WriteGuard.bound g - g.pages.length) none) >>= fun cache =>
      pure (g.writeState.dirty.entries.map fun e => (e.1, e.2), { g with
        numPages := WriteGuard.bound g
        pages := cache
        writeState := ⟨∅, 0⟩ }) := rfl

omit [Crc32Fast] in
theorem storeImages_cons (image : ℕ × Page) (images : List (ℕ × Page))
    (cache : List (Option Page)) : storeImages (image :: images) cache =
      if image.1 < cache.length then storeImages images (cache.set image.1 (some image.2))
      else panic := by
  unfold storeImages
  rw [List.foldlM_cons]
  split
  · rw [ok_bind]
  · rfl

/-- Publishing keeps caches alike. -/
theorem storeImages_slots {disk : List Page} (images : List (ℕ × Page))
    {cache cache' : List (Option Page)} (hlen : cache'.length = cache.length)
    (hslots : ∀ q, slotRead disk cache' q = slotRead disk cache q) :
    match storeImages images cache, storeImages images cache' with
    | .ok d, .ok d' => d'.length = d.length ∧ (∀ q, slotRead disk d' q = slotRead disk d q) ∧
        ∀ q : ℕ, cache'[q]?.join = cache[q]?.join → d'[q]?.join = d[q]?.join
    | .error e, .error e' => e' = e
    | _, _ => False := by
  induction images generalizing cache cache' with
  | nil => exact ⟨hlen, hslots, fun _ => id⟩
  | cons image images ih =>
      rw [storeImages_cons, storeImages_cons]
      by_cases hlt : image.1 < cache.length
      · rw [if_pos hlt, if_pos (hlen ▸ hlt)]
        have hset : ∀ l : List (Option Page), image.1 < l.length → ∀ q,
            (l.set image.1 (some image.2))[q]?.join =
              if image.1 = q then some image.2 else l[q]?.join := by
          intro l hl q
          by_cases hq : image.1 = q
          · rw [if_pos hq, ← hq, List.getElem?_set_self hl]
            rfl
          · rw [if_neg hq, List.getElem?_set_ne hq]
        have hrest := @ih (cache.set image.1 (some image.2))
          (cache'.set image.1 (some image.2))
          (by rw [List.length_set, List.length_set, hlen]) (fun q => by
            have hq := hslots q
            unfold slotRead at hq ⊢
            rw [hset cache' (hlen ▸ hlt), hset cache hlt]
            by_cases himage : image.1 = q
            · rw [if_pos himage, if_pos himage]
            · rw [if_neg himage, if_neg himage]
              exact hq)
        revert hrest
        cases storeImages images (cache.set image.1 (some image.2)) with
        | error e =>
            cases storeImages images (cache'.set image.1 (some image.2)) with
            | error e' => exact id
            | ok d' => exact id
        | ok d =>
            cases storeImages images (cache'.set image.1 (some image.2)) with
            | error e' => exact id
            | ok d' =>
                rintro ⟨hlength, hreads, hjoin⟩
                refine ⟨hlength, hreads, fun q hq => hjoin q ?_⟩
                rw [hset cache' (hlen ▸ hlt), hset cache hlt, hq]
      · rw [if_neg hlt, if_neg (hlen ▸ hlt)]
        rfl

/-- Commits of guards that no read can tell apart publish the same pages and leave files that
no read can tell apart, or fail alike. -/
theorem Alike.publish (h : Alike g g') :
    match g.commit, g'.commit with
    | .ok (images, file), .ok (images', file') => images' = images ∧ Alike file file'
    | .error e, .error e' => e' = e
    | _, _ => False := by
  have hbound : WriteGuard.bound g' = WriteGuard.bound g := h.bound
  have hle : g.numPages ≤ WriteGuard.bound g := Nat.le_add_right _ _
  have hlen : (g'.pages ++ List.replicate (WriteGuard.bound g - g'.pages.length) none).length =
      (g.pages ++ List.replicate (WriteGuard.bound g - g.pages.length) none).length := by
    have hmax := h.length
    rw [List.length_append, List.length_replicate, List.length_append, List.length_replicate]
    omega
  have hslots : ∀ q, BoogyDb.slotRead g.disk
      (g'.pages ++ List.replicate (WriteGuard.bound g - g'.pages.length) none) q =
      BoogyDb.slotRead g.disk (g.pages ++ List.replicate (WriteGuard.bound g - g.pages.length) none) q := by
    intro q
    have hq := h.slotRead q
    unfold BoogyDb.slotRead at hq ⊢
    rw [join_append_none, join_append_none]
    exact hq
  have hpublish := storeImages_slots (g.writeState.dirty.entries.map fun e => (e.1, e.2)) hlen hslots
  rw [commit_eq_storeImages, commit_eq_storeImages, hbound, h.writeState]
  by_cases hlimit : pageNoLimit ≤ WriteGuard.bound g
  · rw [if_pos hlimit, if_pos hlimit]
    rfl
  rw [if_neg hlimit, if_neg hlimit]
  revert hpublish
  cases storeImages (g.writeState.dirty.entries.map fun e => (e.1, e.2))
      (g.pages ++ List.replicate (WriteGuard.bound g - g.pages.length) none) with
  | error e =>
      cases storeImages (g.writeState.dirty.entries.map fun e => (e.1, e.2))
          (g'.pages ++ List.replicate (WriteGuard.bound g - g'.pages.length) none) with
      | error e' => exact fun heq => heq
      | ok d' => exact False.elim
  | ok d =>
      cases storeImages (g.writeState.dirty.entries.map fun e => (e.1, e.2))
          (g'.pages ++ List.replicate (WriteGuard.bound g - g'.pages.length) none) with
      | error e' => exact False.elim
      | ok d' =>
          rintro ⟨hlength, hreads, hjoin⟩
          refine ⟨rfl, h.disk, rfl, rfl, funext fun q => ?_, fun q hq => hjoin q ?_, ?_⟩
          · unfold PageFile.readPage
            dsimp only
            split
            · rfl
            · rw [h.disk]
              exact hreads q
          · rw [join_append_none, join_append_none]
            exact h.beyond q (hle.trans hq)
          · dsimp only
            rw [hlength]

/-- **Commits of guards that no read can tell apart** publish the same. -/
theorem Alike.commit (h : Alike g g') : SameCommit g g' := by
  have hpublish := h.publish
  unfold SameCommit
  revert hpublish
  cases g.commit with
  | error e =>
      cases g'.commit with
      | error e' => exact id
      | ok res' => exact id
  | ok res =>
      cases g'.commit with
      | error e' => exact id
      | ok res' => exact fun hsame => ⟨hsame.1, hsame.2.numPages, hsame.2.readPage⟩

/-! ## Sections -/

/-- Does the run end with this outcome? -/
def Outcome.panics (outcome : Outcome α) : Bool := (panicOf outcome.result).isSome

/-- The closures under one guard.  Before each of them others read pages. -/
def underOneGuard : List (List ℕ × GuardProgram α) → WriteGuard → List (Outcome α) × WriteGuard
  | [], guard => ([], guard)
  | (others, p) :: programs, guard =>
    let (outcome, guard) := p.run (readOthers others guard)
    if outcome.panics then ([outcome], guard)
    else
      let (outcomes, guard) := underOneGuard programs guard
      (outcome :: outcomes, guard)

/-- A closure as `with_guard` takes it. -/
def GuardProgram.closure (p : GuardProgram α) : StateResult WriteGuard (Outcome α) := fun guard =>
  .ok (p.run guard).1 (p.run guard).2

/-- The closures in sections of their own.  Before each of them others read pages. -/
def inSections : List (List ℕ × GuardProgram α) → StateResult InTransaction (List (Outcome α))
  | [] => pure []
  | (others, p) :: programs => do
    modify fun s => { s with db.file := readOthers others s.db.file }
    let outcome ← InTransaction.withGuard p.closure
    if outcome.panics then pure [outcome]
    else
      let outcomes ← inSections programs
      pure (outcome :: outcomes)

/-- Reads of others between two sections. -/
theorem alike_guard_readOthers (s : InTransaction) (others : List ℕ) :
    Alike s.guard ({ s with db.file := readOthers others s.db.file } : InTransaction).guard := by
  have halike := alike_readOthers others s.db.file
  unfold InTransaction.guard AcidTransaction.enter WriteGuard.setNewPageCount
    WriteGuard.injectDirty
  dsimp only
  rw [halike.writeState]
  exact halike.withState _

/-- The run lemma: a transaction whose guard is like the one guard. -/
theorem inSections_alike {s : InTransaction} {g : WriteGuard} (h : Alike g s.guard)
    (hclean : s.db.file.writeState = ⟨∅, 0⟩) (sections single : List (List ℕ × GuardProgram α))
    (hsame : sections.map Prod.snd = single.map Prod.snd) :
    ∃ s', inSections sections s = .ok (underOneGuard single g).1 s' ∧
      Alike (underOneGuard single g).2 s'.guard ∧ s'.db.file.writeState = ⟨∅, 0⟩ := by
  induction sections generalizing s g single with
  | nil =>
      cases single with
      | nil => exact ⟨s, rfl, h, hclean⟩
      | cons _ _ => cases hsame
  | cons first sections ih =>
      cases single with
      | nil => cases hsame
      | cons first' single =>
          obtain ⟨others, p⟩ := first
          obtain ⟨others', p'⟩ := first'
          obtain ⟨rfl, hrest⟩ := List.cons.inj hsame
          set s₁ : InTransaction := { s with db.file := readOthers others s.db.file } with hs₁
          set g₁ := readOthers others' g with hg₁
          have hbefore : Alike g₁ s₁.guard :=
            (alike_readOthers others' g).symm.trans (h.trans (alike_guard_readOthers s others))
          obtain ⟨houtcome, hafter⟩ := hbefore.run p
          have hclosure : InTransaction.withGuard p.closure s₁ =
              .ok (p.run g₁).1 (s₁.leave (p.run s₁.guard).2) := by
            rw [← houtcome]
            rfl
          have hnext : Alike (p.run g₁).2 (s₁.leave (p.run s₁.guard).2).guard := by
            rw [InTransaction.guard_leave]
            exact hafter
          have hsections : inSections ((others, p) :: sections) s =
              (if (p.run g₁).1.panics then pure [(p.run g₁).1]
              else do
                let outcomes ← inSections sections
                pure ((p.run g₁).1 :: outcomes)) (s₁.leave (p.run s₁.guard).2) := by
            change (InTransaction.withGuard p.closure >>= fun outcome =>
              if outcome.panics then pure [outcome]
              else do
                let outcomes ← inSections sections
                pure (outcome :: outcomes)) s₁ = _
            rw [run_bind_ok hclosure]
          have hsingle : underOneGuard ((others', p) :: single) g =
              if (p.run g₁).1.panics then ([(p.run g₁).1], (p.run g₁).2)
              else ((p.run g₁).1 :: (underOneGuard single (p.run g₁).2).1,
                (underOneGuard single (p.run g₁).2).2) := rfl
          rw [hsections, hsingle]
          by_cases hpanics : (p.run g₁).1.panics = true
          · rw [if_pos hpanics, if_pos hpanics]
            exact ⟨_, rfl, hnext, rfl⟩
          · rw [if_neg hpanics, if_neg hpanics]
            obtain ⟨s', hrun, hend⟩ := ih hnext rfl single hrest
            exact ⟨s', run_bind_ok hrun, hend⟩

theorem newInOverlay_underOneGuard (single : List (List ℕ × GuardProgram α))
    (hplain : ∀ p ∈ single, p.2.Plain) (h : NewInOverlay g) :
    NewInOverlay (underOneGuard single g).2 := by
  induction single generalizing g with
  | nil => exact h
  | cons first single ih =>
      obtain ⟨others, p⟩ := first
      obtain ⟨hp, hrest⟩ := List.forall_mem_cons.mp hplain
      have hafter : NewInOverlay (p.run (readOthers others g)).2 :=
        (h.of_writeState (alike_readOthers others g).writeState).run hp
      change NewInOverlay (if (p.run (readOthers others g)).1.panics then
        ([(p.run (readOthers others g)).1], (p.run (readOthers others g)).2)
        else ((p.run (readOthers others g)).1 :: (underOneGuard single _).1,
          (underOneGuard single (p.run (readOthers others g)).2).2)).2
      split
      · exact hafter
      · exact ih hrest hafter

/-- A guard without dirty and new pages publishes nothing. -/
theorem commit_nothing {images : List (ℕ × Page)} {file : PageFile}
    (hempty : g.writeState.dirty.entries = []) (hcount : g.writeState.newPageCount = 0)
    (h : WriteGuard.commit g = .ok (images, file)) :
    file.pageCount = g.pageCount ∧ file.readPage = PageFile.readPage g := by
  have hbound : WriteGuard.bound g = g.numPages := by
    unfold WriteGuard.bound
    rw [hcount, Nat.add_zero]
  rw [commit_eq_storeImages, hbound, hempty] at h
  split at h
  · cases h
  · cases h
    refine ⟨rfl, funext fun q => ?_⟩
    unfold PageFile.readPage
    dsimp only
    rw [join_append_none]

/-- When the commit of the transaction returns, it has published what the guard publishes. -/
def CommitsAs (g : WriteGuard) (s : InTransaction) : Prop :=
  ∀ s' images file, InTransaction.commit s = .ok () s' → g.commit = .ok (images, file) →
    s'.db.file.pageCount = file.pageCount ∧ s'.db.file.readPage = file.readPage

theorem commitsAs_of_alike {s : InTransaction} (h : Alike g s.guard)
    (hclean : s.db.file.writeState = ⟨∅, 0⟩) (hnew : NewInOverlay g) : CommitsAs g s := by
  intro s' images file hcommit hguard
  unfold InTransaction.commit at hcommit
  split at hcommit
  · -- the transaction has no pages, so neither has the guard
    rename_i hempty
    cases hcommit
    rw [Bool.and_eq_true] at hempty
    have hdirty : s.guard.writeState.dirty.entries = s.tx.privateDirty.entries := by
      change (s.db.file.writeState.dirty ∪ s.tx.privateDirty).entries = _
      rw [hclean, AList.empty_union]
    have hnone : g.writeState.dirty.entries = [] := by
      rw [← h.writeState, hdirty]
      exact List.isEmpty_iff.mp hempty.1
    have hcount : g.writeState.newPageCount = 0 := hnew (List.isEmpty_iff.mpr hnone)
    obtain ⟨hpages, hreads⟩ := commit_nothing hnone hcount hguard
    exact ⟨(show s.guard.numPages = _ from h.numPages).trans hpages.symm,
      (show PageFile.readPage s.guard = _ from h.readPage).trans hreads.symm⟩
  · dsimp only at hcommit
    cases hfile : commitFile s.db.durability _ (s.tx.enter s.db.file) s.db.wal with
    | error e =>
        rw [hfile] at hcommit
        cases hcommit
    | ok res =>
        rw [hfile] at hcommit
        cases hcommit
        obtain ⟨images', hpublished⟩ := commitFile_ok hfile
        have hsame := h.commit
        unfold SameCommit at hsame
        rw [hguard, show WriteGuard.commit s.guard = _ from hpublished] at hsame
        exact ⟨hsame.2.1, hsame.2.2⟩

/-- **Sections compose.**  Closures that run in sections of their own get the answers they
get under one guard, and at the end the pages of the transaction, in the overlay once more,
commit as the one guard does.  If the closures leave taking pages in and out to the section,
so does the transaction, which skips the commit when it has no pages. -/
theorem sections_compose {db : Db} (hclean : db.file.writeState = ⟨∅, 0⟩)
    (sections single : List (List ℕ × GuardProgram α))
    (hsame : sections.map Prod.snd = single.map Prod.snd) :
    ∃ s, inSections sections db.beginAcid = .ok (underOneGuard single db.file).1 s ∧
      SameCommit (underOneGuard single db.file).2 s.guard ∧
      ((∀ p ∈ single, p.2.Plain) → CommitsAs (underOneGuard single db.file).2 s) := by
  have hstart : Alike db.file db.beginAcid.guard := by
    rw [guard_beginAcid hclean]
    exact .refl db.file
  obtain ⟨s, hrun, halike, hend⟩ := inSections_alike hstart hclean sections single hsame
  refine ⟨s, hrun, halike.commit, fun hplain => commitsAs_of_alike halike hend ?_⟩
  refine newInOverlay_underOneGuard single hplain fun _ => ?_
  rw [hclean]

end

/-- Two sections that take a page each, and a reader between them. -/
theorem sections_compose_two : letI := crc32Ieee
    let takePage : GuardProgram Unit := .call .allocatePage fun _ => .done (.ok ())
    ∃ s, inSections [([], takePage), ([0], takePage)] newDb.beginAcid =
        .ok (underOneGuard [([], takePage), ([], takePage)] newDb.file).1 s ∧
      SameCommit (underOneGuard [([], takePage), ([], takePage)] newDb.file).2 s.guard := by
  let := crc32Ieee
  intro takePage
  obtain ⟨s, hrun, hcommit, -⟩ := @sections_compose _ Unit newDb rfl
    [([], takePage), ([0], takePage)] [([], takePage), ([], takePage)] rfl
  exact ⟨s, hrun, hcommit⟩

end BoogyDb
