import BoogyDb.OverflowChain

/-!
# Walking along any overflow chain

`reassemble_row_reader` and `reassemble_row_writer` follow a chain whose pages may say
anything: their links may form a cycle or end early, and the payload length of a page is an
unchecked 16-bit field.  The loop ends after `remaining / OVERFLOW_PAYLOAD_MAX + 2` pages at
the latest.  What can go wrong before that is

* a page whose payload would reach beyond its end: the slice panics;
* a chain that ends before `remaining` bytes were read: what was read is returned as the row.

`Leads` follows a chain over a list of payloads, `GoesOn` says that neither happens, and
`reassembleRow_exact_iff` that this is what an exact reassembly needs.
-/

namespace BoogyDb

open Bytes WriteGuard

variable {read : ℕ → Result Page} {p q fuel left : ℕ} {payload full : List UInt8}
  {payloads : List (List UInt8)} {page : Page}

/-! ## Payloads -/

/-- The payload lies within the page. -/
def PayloadFits (page : Page) : Prop := pageHeaderSize + page.overflowPayloadLen ≤ pageSize

theorem readOverflowPayload_ok (h : PayloadFits page) :
    ∃ payload, readOverflowPayload page = .ok payload := by
  refine ⟨_, bytesOf_ok (Nat.le_add_right _ _) ?_⟩
  rw [page.size]
  exact h

/-- A payload that reaches beyond the page cannot be sliced. -/
theorem readOverflowPayload_panics (h : ¬ PayloadFits page) : readOverflowPayload page = panic := by
  rw [readOverflowPayload, bytesOf, page.size]
  exact if_neg fun hin => h hin.2

/-! ## Chains -/

/-- The chain leads from page `p` over pages with these payloads to page `q`. -/
inductive Leads (read : ℕ → Result Page) : ℕ → List (List UInt8) → ℕ → Prop
  | nil (p : ℕ) : Leads read p [] p
  | cons {p q : ℕ} {page : Page} {payload : List UInt8} {payloads : List (List UInt8)}
      (hp : p ≠ 0) (hread : read p = .ok page) (hpayload : readOverflowPayload page = .ok payload)
      (hrest : Leads read page.overflowNext payloads q) : Leads read p (payload :: payloads) q

/-- As long as fewer than `left` bytes were read, the chain goes on, and within `fuel` pages
to a page whose payload can be read. -/
def GoesOn (read : ℕ → Result Page) (fuel p left : ℕ) : Prop :=
  ∀ payloads q, Leads read p payloads q → payloads.length ≤ fuel → payloads.flatten.length < left →
    q ≠ 0 ∧ (payloads.length < fuel → ∀ page, read q = .ok page → PayloadFits page)

theorem goesOn_zero : GoesOn read fuel p 0 := fun _ _ _ _ hlt => absurd hlt (Nat.not_lt_zero _)

/-- Without pages left to read, only the end of the chain matters. -/
theorem goesOn_no_fuel (hleft : left ≠ 0) : GoesOn read 0 p left ↔ p ≠ 0 := by
  constructor
  · intro h
    exact (h [] p (.nil p) le_rfl (by simpa using Nat.pos_of_ne_zero hleft)).1
  · intro hp payloads q hleads hlen _
    obtain rfl : payloads = [] := by simpa using hlen
    cases hleads
    exact ⟨hp, fun hlt => absurd hlt (Nat.not_lt_zero _)⟩

/-- One page of the chain. -/
theorem goesOn_succ (hleft : left ≠ 0) :
    GoesOn read (fuel + 1) p left ↔ p ≠ 0 ∧ ∀ page, read p = .ok page → PayloadFits page ∧
      ∀ payload, readOverflowPayload page = .ok payload →
        GoesOn read fuel page.overflowNext (left - payload.length) := by
  constructor
  · intro h
    obtain ⟨hp, hfits⟩ := h [] p (.nil p) (Nat.zero_le _) (by simpa using Nat.pos_of_ne_zero hleft)
    refine ⟨hp, fun page hread => ⟨hfits (Nat.succ_pos _) page hread, ?_⟩⟩
    intro payload hpayload payloads q hleads hlen hlt
    obtain ⟨hq, hnext⟩ := h (payload :: payloads) q (.cons hp hread hpayload hleads)
      (by simpa using hlen) (by simp only [List.flatten_cons, List.length_append]; omega)
    exact ⟨hq, fun hmore => hnext (by simpa using hmore)⟩
  · rintro ⟨hp, hpage⟩ payloads q hleads hlen hlt
    cases hleads with
    | nil => exact ⟨hp, fun _ page hread => (hpage page hread).1⟩
    | cons _ hread hpayload hrest =>
        rw [List.flatten_cons, List.length_append] at hlt
        rw [List.length_cons] at hlen ⊢
        obtain ⟨hq, hnext⟩ := (hpage _ hread).2 _ hpayload _ q hrest (by omega) (by omega)
        exact ⟨hq, fun hmore => hnext (by omega)⟩

/-! ## The loop -/

/-- The loop fails with an error, or returns the first `left` bytes of the payloads. -/
def ReadsExactly (read : ℕ → Result Page) (fuel : ℕ) (full : List UInt8) (p left : ℕ) : Prop :=
  (∃ e, readChain read fuel full p left = fail e) ∨
    ∃ payloads q, Leads read p payloads q ∧ left ≤ payloads.flatten.length ∧
      readChain read fuel full p left = .ok (full ++ payloads.flatten.take left)

theorem readsExactly_zero : ReadsExactly read fuel full p 0 := by
  have hdone : readChain read fuel full p 0 = .ok full := by
    cases fuel with
    | zero => exact if_pos (.inr rfl)
    | succ fuel => exact if_pos (.inr rfl)
  exact .inr ⟨[], p, .nil p, Nat.zero_le _, by simpa using hdone⟩

/-- A chain that ends too early is not noticed. -/
theorem not_readsExactly_end (hleft : left ≠ 0) : ¬ ReadsExactly read fuel full 0 left := by
  intro h
  rcases h with ⟨e, he⟩ | ⟨payloads, q, hleads, hlen, -⟩
  · rw [readChain_zero] at he
    cases he
  · cases hleads with
    | nil => exact hleft (Nat.le_zero.mp hlen)
    | cons hp => exact hp rfl

/-- One turn of the loop, on a page that can be read. -/
theorem readsExactly_succ (hp : p ≠ 0) (hleft : left ≠ 0) (hread : read p = .ok page)
    (hpayload : readOverflowPayload page = .ok payload) :
    ReadsExactly read (fuel + 1) full p left ↔
      ReadsExactly read fuel (full ++ payload.take left) page.overflowNext
        (left - payload.length) := by
  have hturn : readChain read (fuel + 1) full p left =
      readChain read fuel (full ++ payload.take left) page.overflowNext (left - payload.length) := by
    have htake : payload.take (min payload.length left) = payload.take left := by
      rw [List.take_eq_take_iff]
      omega
    have hsub : left - min payload.length left = left - payload.length := by omega
    rw [readChain, if_neg (by simp [hp, hleft]), hread, ok_bind, hpayload, ok_bind, htake, hsub]
  -- the payload of this page comes first
  have hbytes : ∀ rest : List (List UInt8),
      full ++ (payload ++ rest.flatten).take left =
        full ++ payload.take left ++ rest.flatten.take (left - payload.length) := by
    intro rest
    rw [List.take_append, List.append_assoc]
  unfold ReadsExactly
  rw [hturn]
  apply or_congr_right
  constructor
  · rintro ⟨payloads, q, hleads, hlen, hok⟩
    cases hleads with
    | nil => exact absurd (Nat.le_zero.mp hlen) hleft
    | cons _ hread' hpayload' hrest =>
        obtain rfl := Except.ok.inj (hread.symm.trans hread')
        obtain rfl := Except.ok.inj (hpayload.symm.trans hpayload')
        rw [List.flatten_cons] at hlen hok
        rw [List.length_append] at hlen
        exact ⟨_, q, hrest, by omega, hok.trans (congrArg _ (hbytes _))⟩
  · rintro ⟨payloads, q, hleads, hlen, hok⟩
    refine ⟨payload :: payloads, q, .cons hp hread hpayload hleads, ?_, ?_⟩
    · rw [List.flatten_cons, List.length_append]
      omega
    · rw [List.flatten_cons]
      exact hok.trans (congrArg _ (hbytes _).symm)

/-- **The loop is exact** when the chain goes on until enough was read. -/
theorem readsExactly_iff (hread : ∀ p, Completes (read p)) :
    ReadsExactly read fuel full p left ↔ GoesOn read fuel p left := by
  induction fuel generalizing full p left with
  | zero =>
      by_cases hleft : left = 0
      · subst hleft
        exact iff_of_true readsExactly_zero goesOn_zero
      rw [goesOn_no_fuel hleft]
      by_cases hp : p = 0
      · subst hp
        exact iff_of_false (not_readsExactly_end hleft) fun h => h rfl
      · have hcycle : readChain read 0 full p left =
            fail (.corruption "overflow chain cycle detected") := if_neg (by simp [hp, hleft])
        exact iff_of_true (.inl ⟨_, hcycle⟩) hp
  | succ fuel ih =>
      by_cases hleft : left = 0
      · subst hleft
        exact iff_of_true readsExactly_zero goesOn_zero
      rw [goesOn_succ hleft]
      by_cases hp : p = 0
      · subst hp
        exact iff_of_false (not_readsExactly_end hleft) fun h => h.1 rfl
      have hturn : readChain read (fuel + 1) full p left = (do
          let page ← read p
          let payload ← readOverflowPayload page
          readChain read fuel (full ++ payload.take (min payload.length left)) page.overflowNext
            (left - min payload.length left)) := if_neg (by simp [hp, hleft])
      cases hpage : read p with
      | error f =>
          obtain ⟨e, rfl⟩ := hread p f hpage
          refine iff_of_true (.inl ⟨e, ?_⟩) ⟨hp, fun page hok => nomatch hok⟩
          rw [hturn, hpage]
          rfl
      | ok page =>
          simp only [Except.ok.injEq, forall_eq', ne_eq, hp, not_false_eq_true, true_and]
          by_cases hfits : PayloadFits page
          · obtain ⟨payload, hpayload⟩ := readOverflowPayload_ok hfits
            rw [readsExactly_succ hp hleft hpage hpayload, ih, hpayload]
            simp only [hfits, Except.ok.injEq, forall_eq', true_and]
          · refine iff_of_false (fun h => ?_) fun h => hfits h.1
            rw [ReadsExactly, hturn, hpage, ok_bind, readOverflowPayload_panics hfits] at h
            rcases h with ⟨e, he⟩ | ⟨_, _, _, _, hok⟩
            · cases he
            · cases hok

/-! ## Reassembly -/

/-- A cell is put together exactly: the result is an error, or the inline bytes and as many
bytes of the chain as the trailer says. -/
def ReassemblesExactly (read : ℕ → Result Page) (cell : List UInt8) : Prop :=
  (∃ e, reassembleRow read cell = fail e) ∨
    ∃ inlineLen first remaining payloads q,
      decodeOverflowTrailer cell = .ok (inlineLen, first, remaining) ∧
      Leads read first payloads q ∧ remaining ≤ payloads.flatten.length ∧
      reassembleRow read cell = .ok (cell.take inlineLen ++ payloads.flatten.take remaining)

/-- The chain of a cell that is not too long for reassembly goes on until the bytes of its
trailer were read. -/
def ChainCovers (read : ℕ → Result Page) (cell : List UInt8) : Prop :=
  ∀ inlineLen first remaining, decodeOverflowTrailer cell = .ok (inlineLen, first, remaining) →
    inlineLen + remaining ≤ maxReassembleSize →
    GoesOn read (remaining / overflowPayloadMax + 2) first remaining

theorem decodeOverflowTrailer_ok {cell : List UInt8} (h : hasOverflow cell = true) :
    ∃ first remaining,
      decodeOverflowTrailer cell = .ok (cell.length - overflowTrailerSize, first, remaining) := by
  have hlen : overflowTrailerSize ≤ cell.length := by
    by_contra hshort
    rw [hasOverflow, if_pos (by omega)] at h
    cases h
  have h10 : overflowTrailerSize = 10 := rfl
  refine ⟨readLe cell (cell.length - overflowTrailerSize + 2) 4,
    readLe cell (cell.length - overflowTrailerSize + 6) 4, ?_⟩
  rw [decodeOverflowTrailer, if_neg (by omega), readU32_ok (by omega), ok_bind,
    readU32_ok (by omega)]
  rfl

theorem reassemblesExactly_iff {cell : List UInt8} (hread : ∀ p, Completes (read p))
    (h : hasOverflow cell = true) : ReassemblesExactly read cell ↔ ChainCovers read cell := by
  obtain ⟨first, remaining, hdecode⟩ := decodeOverflowTrailer_ok h
  have hinline : bytesOf cell 0 (cell.length - overflowTrailerSize) =
      .ok (cell.take (cell.length - overflowTrailerSize)) := by
    rw [bytesOf_ok (Nat.zero_le _) (Nat.sub_le _ _)]
    rfl
  have hrow : reassembleRow read cell =
      if cell.length - overflowTrailerSize + remaining > maxReassembleSize then
        fail (.corruption (s!"overflow row claims {cell.length - overflowTrailerSize + remaining} bytes, " ++
          s!"exceeds {maxReassembleSize} byte safety limit"))
      else readChain read (remaining / overflowPayloadMax + 2)
        (cell.take (cell.length - overflowTrailerSize)) first remaining := by
    rw [reassembleRow, if_neg (by simp [h]), hdecode, ok_bind]
    dsimp only
    rw [hinline, ok_bind]
  unfold ReassemblesExactly ChainCovers
  simp only [hdecode, Except.ok.injEq, Prod.mk.injEq, hrow]
  by_cases hlong : cell.length - overflowTrailerSize + remaining > maxReassembleSize
  · rw [if_pos hlong]
    refine iff_of_true (.inl ⟨_, rfl⟩) ?_
    rintro _ _ _ ⟨rfl, rfl, rfl⟩ hle
    exact absurd hle (Nat.not_le.mpr hlong)
  · rw [if_neg hlong]
    have hexact := @readsExactly_iff read first (remaining / overflowPayloadMax + 2) remaining
      (cell.take (cell.length - overflowTrailerSize)) hread
    constructor
    · rintro hres _ _ _ ⟨rfl, rfl, rfl⟩ -
      apply hexact.mp
      rcases hres with he | ⟨_, _, _, payloads, q, ⟨rfl, rfl, rfl⟩, hleads, hlen, hok⟩
      · exact .inl he
      · exact .inr ⟨payloads, q, hleads, hlen, hok⟩
    · intro hcovers
      rcases hexact.mpr (hcovers _ _ _ ⟨rfl, rfl, rfl⟩ (Nat.not_lt.mp hlong)) with he |
        ⟨payloads, q, hleads, hlen, hok⟩
      · exact .inl he
      · exact .inr ⟨_, _, _, payloads, q, ⟨rfl, rfl, rfl⟩, hleads, hlen, hok⟩

section

variable [Crc32Fast]

theorem completes_validate (page : Page) : Completes page.validate :=
  .ite (fun _ => completes_fail _) fun _ => .ite (fun _ => completes_fail _) fun _ => completes_ok _

theorem completes_readPage (file : PageFile) (p : ℕ) : Completes (file.readPage p) := by
  unfold PageFile.readPage
  refine .ite (fun _ => completes_fail _) fun _ => ?_
  split
  · exact completes_ok _
  · -- a page of the disk is checked first
    unfold PageFile.readPageFromDisk
    split
    · exact completes_fail _
    · exact (completes_validate _).bind fun _ _ => completes_ok _

theorem completes_view (guard : WriteGuard) (p : ℕ) : Completes (guard.view p) := by
  unfold WriteGuard.view
  split
  · exact completes_ok _
  · exact completes_readPage guard p

/-- **A cell is put together exactly or not at all** when its chain covers it, for readers
and for writers. -/
theorem reassembleRow_exact_iff (file : PageFile) {cell : List UInt8}
    (h : hasOverflow cell = true) :
    (ReassemblesExactly file.readPage cell ↔ ChainCovers file.readPage cell) ∧
      (ReassemblesExactly (WriteGuard.view file) cell ↔ ChainCovers (WriteGuard.view file) cell) :=
  ⟨reassemblesExactly_iff (completes_readPage file) h,
    reassemblesExactly_iff (completes_view file) h⟩

end

/-- A trailer that claims one byte and no page. -/
def danglingCell : List UInt8 := [0xFF, 0xFE, 0, 0, 0, 0, 1, 0, 0, 0]

/-- It is put together without the byte. -/
theorem danglingCell_not_exact : letI := crc32Ieee
    hasOverflow danglingCell = true ∧
      ¬ ReassemblesExactly (PageFile.open []).readPage danglingCell := by
  let := crc32Ieee
  have hdecode : decodeOverflowTrailer danglingCell = .ok (0, 0, 1) := rfl
  refine ⟨rfl, fun h => ?_⟩
  rw [reassemblesExactly_iff (completes_readPage _) rfl] at h
  have hgoes := h 0 0 1 hdecode (by decide)
  exact (hgoes [] 0 (.nil 0) (Nat.zero_le _) (by decide)).1 rfl

/-- A file with a chain of two pages. -/
def chainedFile [Crc32Fast] : PageFile :=
  let pages := [Page.zeroed, overflowPage [7, 8] 2, overflowPage [9] 0]
  ⟨pages, 3, pages.map some, ⟨∅, 0⟩⟩

/-- Two bytes, and a trailer that claims the three bytes of the chain. -/
def chainedCell : List UInt8 := [1, 2, 0xFF, 0xFE, 1, 0, 0, 0, 3, 0, 0, 0]

theorem goesOn_overflowPage [Crc32Fast] {data : List UInt8} {next : ℕ}
    (hread : read p = .ok (overflowPage data next)) (hp : p ≠ 0) (hnext : next < 2 ^ 32)
    (hlen : data.length ≤ overflowPayloadMax) (hrest : GoesOn read fuel next (left - data.length)) :
    GoesOn read (fuel + 1) p left := by
  rcases Nat.eq_zero_or_pos left with rfl | hleft
  · exact goesOn_zero
  have hpayload : readOverflowPayload (overflowPage data next) = .ok data :=
    readOverflowPayload_overflowPage hlen
  refine (goesOn_succ hleft.ne').mpr ⟨hp, fun page hpage => ?_⟩
  obtain rfl := Except.ok.inj (hread.symm.trans hpage)
  refine ⟨?_, fun payload hok => ?_⟩
  · by_contra hfits
    rw [readOverflowPayload_panics hfits] at hpayload
    cases hpayload
  · obtain rfl := Except.ok.inj (hpayload.symm.trans hok)
    rwa [overflowNext_overflowPage hnext]

theorem chainCovers_chainedCell [Crc32Fast] (h₁ : read 1 = .ok (overflowPage [7, 8] 2))
    (h₂ : read 2 = .ok (overflowPage [9] 0)) : ChainCovers read chainedCell := by
  intro inlineLen first remaining hdecode _
  have htrailer : decodeOverflowTrailer chainedCell = .ok (2, 1, 3) := rfl
  obtain ⟨rfl, rfl, rfl⟩ := by simpa using htrailer.symm.trans hdecode
  refine goesOn_overflowPage h₁ (by decide) (by decide) (by decide) ?_
  exact goesOn_overflowPage h₂ (by decide) (by decide) (by decide) goesOn_zero

/-- A cell that its chain covers is put together exactly, one that no chain covers is not. -/
theorem reassembleRow_exact_iff_chained : letI := crc32Ieee
    (ReassemblesExactly chainedFile.readPage chainedCell ∧
        ReassemblesExactly (WriteGuard.view chainedFile) chainedCell) ∧
      ¬ ReassemblesExactly (WriteGuard.view (PageFile.open [])) danglingCell := by
  let := crc32Ieee
  obtain ⟨hreads, hviews⟩ := reassembleRow_exact_iff chainedFile
    (rfl : hasOverflow chainedCell = true)
  obtain ⟨-, hdangling⟩ := reassembleRow_exact_iff (PageFile.open [])
    (rfl : hasOverflow danglingCell = true)
  refine ⟨⟨hreads.mpr (chainCovers_chainedCell rfl rfl),
    hviews.mpr (chainCovers_chainedCell rfl rfl)⟩, fun h => ?_⟩
  have hgoes := hdangling.mp h 0 0 1 rfl (by decide)
  exact (hgoes [] 0 (.nil 0) (Nat.zero_le _) (by decide)).1 rfl

end BoogyDb
