import BoogyDb.Crypto
import BoogyDb.Lib.AesGcm
import BoogyDb.PageOwners
import Mathlib.Data.List.GetD

/-!
# What an encrypted page keeps

A leaf, a branch page and an overflow page are restored from the first 4068
bytes of their image, the rest filled up with zeros.  The contents come back
exactly when the bytes of the image behind these, up to the checksum, were zero
(`encrypted_page_survives_iff`): a page image has no other byte there that is not
part of a row, an entry or a payload.  The pages of a table tree, of its overflow
chains and of an index tree are such images in every run
(`StoredRun.pages_survive_iff`, `IndexRun.pages_survive_iff`).
-/

namespace BoogyDb

open Bytes

section

variable [Crc32Fast]

/-- What the writers of the two trees and of the overflow chains put on a page. -/
inductive PageContents
  | leaf (rows : List (List UInt8)) (next prev : ℕ)
  | rowBranch (children : List ℕ) (keys : List UInt64)
  | idxBranch (children : List ℕ) (keys : List (List UInt8))
  | overflow (data : List UInt8) (next : ℕ)

namespace PageContents

/-- The page with the contents. -/
def page : PageContents → Page
  | leaf rows next prev => leafPage rows next prev
  | rowBranch children keys => BoogyDb.rowBranch.branchPage children keys
  | idxBranch children keys => BoogyDb.idxBranch.branchPage children keys
  | overflow data next => overflowPage data next

/-- The writers got the contents into the page.  A leaf is filled up to the end of the
page, and the checksum then takes its last bytes. -/
def InPage : PageContents → Prop
  | leaf rows _ _ => usedSize rows ≤ pageSize ∧ rows.length * 2 ≤ payloadSize
  | rowBranch children keys => BoogyDb.rowBranch.BranchFits children keys
  | idxBranch children keys => BoogyDb.idxBranch.BranchFits children keys
  | overflow data _ => data.length ≤ overflowPayloadMax

end PageContents

/-! ## Reading the contents of another page -/

/-- The pages have the same header. -/
def SameHeader (p q : Page) : Prop := slice q.data 0 pageHeaderSize = slice p.data 0 pageHeaderSize

/-- The pages have the same row offsets and rows. -/
def SameRows (p q : Page) : Prop :=
  ∀ i < p.numRows, q.rowOffset i = p.rowOffset i ∧
    rowSlice q i q.numRows = rowSlice p i p.numRows

/-- The pages have the same children and keys. -/
def SameEntries {κ : Type} (fmt : BranchFormat κ) (p q : Page) : Prop :=
  (∀ i ≤ p.numRows, fmt.getBranchChild q i = fmt.getBranchChild p i) ∧
    ∀ i < p.numRows, fmt.getBranchKey q i = fmt.getBranchKey p i

/-- The page `q` has the header and the contents of the page of `c`. -/
def PageContents.SameOn (c : PageContents) (q : Page) : Prop :=
  SameHeader c.page q ∧
    match c with
    | .leaf .. => SameRows c.page q
    | .rowBranch .. => SameEntries BoogyDb.rowBranch c.page q
    | .idxBranch .. => SameEntries BoogyDb.idxBranch c.page q
    | .overflow .. => readOverflowPayload q = readOverflowPayload c.page

/-- Written to the file and restored, the page has its contents. -/
def PageContents.Survives (inner : Aes256Gcm) (nonce : List UInt8) (c : PageContents) : Prop :=
  ∃ raw restored, sealPage inner nonce c.page = .ok raw ∧ restorePage inner raw = .ok restored ∧
    c.SameOn restored

/-- The bytes of the image between those that are encrypted and the checksum are zero. -/
def PageContents.ZeroBehindSeal (c : PageContents) : Prop :=
  ∀ b ∈ slice c.page.data encryptedPayloadSize (pageSize - checksumSize), b = 0

/-! ## Windows that agree -/

variable {h : Header} {body : List UInt8}

theorem getD_pageOf {j : ℕ} (hj : j < payloadSize) :
    (pageOf h body).data.getD (pageHeaderSize + j) 0 = body.getD j 0 := by
  rw [← getD_pad body hj]
  show (h.bytes ++ pad payloadSize body ++ _).getD _ 0 = _
  rw [List.append_assoc, List.getD_eq_getElem?_getD,
    List.getElem?_append_right (by rw [h.length_bytes]; omega), h.length_bytes,
    Nat.add_sub_cancel_left, List.getElem?_append_left (by rw [length_pad]; exact hj),
    List.getD_eq_getElem?_getD]

/-- A page of `body` and one of its sealed part. -/
def sealedPage (h : Header) (body : List UInt8) : Page := pageOf h (body.take sealedSize)

/-- A byte behind the seal that is in a window with the same bytes on both pages is zero. -/
theorem getD_eq_zero_of_agree {a b j : ℕ} (ha : a ≤ pageHeaderSize + j) (hb : pageHeaderSize + j < b)
    (hj : j < payloadSize) (hseal : sealedSize ≤ j)
    (hagree : slice (sealedPage h body).data a b = slice (pageOf h body).data a b) :
    body.getD j 0 = 0 := by
  have hbyte : (slice (sealedPage h body).data a b).getD (pageHeaderSize + j - a) 0 =
      (slice (pageOf h body).data a b).getD (pageHeaderSize + j - a) 0 := by rw [hagree]
  rw [getD_slice _ (by omega), getD_slice _ (by omega), Nat.add_sub_cancel' ha, sealedPage,
    getD_pageOf hj, getD_pageOf hj, List.getD_eq_getElem?_getD, List.getElem?_eq_none (by
      rw [List.length_take]
      exact (Nat.min_le_left _ _).trans hseal)] at hbyte
  exact hbyte.symm

omit [Crc32Fast] in
/-- A number read from both pages. -/
theorem agree_of_readLe {a width : ℕ} {p q : Page} (hend : a + width ≤ pageSize)
    (h : readLe q.data a width = readLe p.data a width) :
    slice q.data a (a + width) = slice p.data a (a + width) := by
  have hlen : ∀ p : Page, (slice p.data a (a + width)).length = width := by
    intro p
    rw [length_slice (by rw [p.size]; exact hend), Nat.add_sub_cancel_left]
  have hbytes := congrArg (leBytes width) h
  rw [readLe, readLe] at hbytes
  conv_lhs => rw [← leBytes_leNat (slice q.data a (a + width)), hlen q]
  conv_rhs => rw [← leBytes_leNat (slice p.data a (a + width)), hlen p]
  exact hbytes

omit [Crc32Fast] in
theorem readU32_agree {a : ℕ} {p q : Page} (hend : a + 4 ≤ pageSize)
    (h : readU32 q.data a = readU32 p.data a) :
    slice q.data a (a + 4) = slice p.data a (a + 4) := by
  rw [readU32_ok (by rw [q.size]; exact hend), readU32_ok (by rw [p.size]; exact hend)] at h
  exact agree_of_readLe hend (Except.ok.inj h)

omit [Crc32Fast] in
theorem readU16_agree {a : ℕ} {p q : Page} (hend : a + 2 ≤ pageSize)
    (h : readU16 q.data a = readU16 p.data a) :
    slice q.data a (a + 2) = slice p.data a (a + 2) := by
  rw [readU16_ok (by rw [q.size]; exact hend), readU16_ok (by rw [p.size]; exact hend)] at h
  exact agree_of_readLe hend (Except.ok.inj h)

/-! ## Leaves -/

section

variable {rows : List (List UInt8)} {next prev : ℕ}

omit [Crc32Fast] in
/-- Every byte of the rows is in one of them. -/
theorem exists_row_of_lt {k : ℕ} (hlo : pageHeaderSize + rows.length * 2 ≤ k)
    (hhi : k < usedSize rows) :
    ∃ i, ∃ hi : i < rows.length, rowStart rows i ≤ k ∧ k < rowStart rows i + rows[i].length := by
  have hex : ∃ i, k < rowStart rows i := ⟨rows.length, by rwa [rowStart_length]⟩
  have hfirst := Nat.find_spec hex
  have hle : Nat.find hex ≤ rows.length := Nat.find_le (by rwa [rowStart_length])
  cases hfind : Nat.find hex with
  | zero =>
      rw [hfind, rowStart, List.take_zero, dataSize_nil] at hfirst
      omega
  | succ i =>
      have hi : i < rows.length := by omega
      have hbefore : rowStart rows i ≤ k := Nat.le_of_not_lt (Nat.find_min hex (by omega))
      rw [hfind, rowStart_succ hi] at hfirst
      exact ⟨i, hi, hbefore, hfirst⟩

/-- The rows of a leaf cover it, so they keep every byte. -/
theorem zero_of_sameRows (hused : usedSize rows ≤ pageSize) (hslots : rows.length * 2 ≤ payloadSize)
    (h : SameRows (leafPage rows next prev) (sealedPage (leafHeader rows next prev) (leafBody rows)))
    {j : ℕ} (hseal : sealedSize ≤ j) (hlt : j < payloadSize) (hj : j < (leafBody rows).length) :
    (leafBody rows).getD j 0 = 0 := by
  have hcount : rows.length < 2 ^ 16 := by
    simp only [payloadSize] at hslots
    omega
  have hnum : (leafPage rows next prev).numRows = rows.length := by
    rw [leafPage, Lays.pageOf.numRows]
    exact Nat.mod_eq_of_lt hcount
  have hnum' : (sealedPage (leafHeader rows next prev) (leafBody rows)).numRows = rows.length := by
    rw [sealedPage, Lays.pageOf.numRows]
    exact Nat.mod_eq_of_lt hcount
  rcases Nat.lt_or_ge j (rows.length * 2) with hoff | hoff
  · -- an offset slot
    have hi : j / 2 < rows.length := by omega
    obtain ⟨hsame, -⟩ := h (j / 2) (hnum ▸ hi)
    have hend : pageHeaderSize + j / 2 * 2 + 2 ≤ pageSize := by
      simp only [pageHeaderSize, pageSize, payloadSize] at *
      omega
    exact getD_eq_zero_of_agree (by omega) (by omega) hlt hseal (readU16_agree hend hsame)
  · -- a row
    rw [length_leafBody] at hj
    obtain ⟨i, hi, hlo, hhi⟩ := @exists_row_of_lt rows (pageHeaderSize + j) (by omega) (by
      rw [usedSize]
      omega)
    have hbounds := @rowBounds_image _ rows next prev hused hslots i hi
    have hbounds' : rowBounds (sealedPage (leafHeader rows next prev) (leafBody rows)) i
        rows.length = .ok (rowStart rows i, rowStart rows i + rows[i].length) := by
      rw [← hbounds, rowBounds, rowBounds, (h i (hnum ▸ hi)).1, rowOffset_image hused hslots hi,
        ok_bind, ok_bind]
      by_cases hlast : i + 1 < rows.length
      · rw [if_pos hlast, if_pos hlast, (h (i + 1) (hnum ▸ hlast)).1]
      · have hfree : (sealedPage (leafHeader rows next prev) (leafBody rows)).freeSpaceOffset =
            (leafPage rows next prev).freeSpaceOffset := by
          rw [sealedPage, Lays.pageOf.freeSpaceOffset, leafPage, Lays.pageOf.freeSpaceOffset]
        rw [if_neg hlast, if_neg hlast, hfree]
    obtain ⟨-, hsame⟩ := h i (hnum ▸ hi)
    have hsize : rowStart rows i + rows[i].length ≤ pageSize := by
      rw [← rowStart_succ hi]
      exact (rowStart_le_usedSize rows (i + 1)).trans hused
    rw [hnum, hnum', rowSlice, rowSlice, hbounds, hbounds', ok_bind, ok_bind] at hsame
    dsimp only at hsame
    rw [bytesOf_ok (Nat.le_add_right _ _) (by rw [Page.size]; exact hsize),
      bytesOf_ok (Nat.le_add_right _ _) (by rw [Page.size]; exact hsize)] at hsame
    exact getD_eq_zero_of_agree hlo hhi hlt hseal (Except.ok.inj hsame)

end

/-! ## Branches -/

section

variable {children : List ℕ} {keys : List UInt64}

omit [Crc32Fast] in
theorem readU64_agree {a : ℕ} {p q : Page} (hend : a + 8 ≤ pageSize)
    (h : readU64 q.data a = readU64 p.data a) :
    slice q.data a (a + 8) = slice p.data a (a + 8) := by
  rw [readU64_ok (by rw [q.size]; exact hend), readU64_ok (by rw [p.size]; exact hend)] at h
  have hnat := congrArg UInt64.toNat (Except.ok.inj h)
  rw [UInt64.toNat_ofNat_of_lt' (readLe_lt _ _ 8), UInt64.toNat_ofNat_of_lt' (readLe_lt _ _ 8)]
    at hnat
  exact agree_of_readLe hend hnat

/-- The entries of a branch page cover it. -/
theorem zero_of_sameEntries (hfits : rowBranch.BranchFits children keys)
    (h : SameEntries rowBranch (rowBranch.branchPage children keys)
      (sealedPage (BranchFormat.branchHeader keys) (rowBranch.branchBody children keys)))
    {j : ℕ} (hseal : sealedSize ≤ j) (hj : j < (rowBranch.branchBody children keys).length) :
    (rowBranch.branchBody children keys).getD j 0 = 0 := by
  have hnum := BranchFormat.numRows_branchPage hfits
  have hsize : rowBranch.entrySize = 12 := rfl
  have hle : (rowBranch.branchBody children keys).length ≤ 4076 := hfits.length_branchBody_le
  rw [BranchFormat.length_branchBody hfits.length_eq, hsize] at hj hle
  have hlt : j < payloadSize := hj.trans_le hle
  have hi : j / 12 ≤ keys.length := by omega
  have hmod := Nat.div_add_mod j 12
  have hrem := Nat.mod_lt j (show 0 < 12 by decide)
  rcases Nat.lt_or_ge (j % 12) 4 with hchild | hkey
  · have hsame := h.1 (j / 12) (hnum ▸ hi)
    have hend : pageHeaderSize + j / 12 * 12 + 4 ≤ pageSize := by
      simp only [pageHeaderSize, pageSize]
      omega
    exact getD_eq_zero_of_agree (by omega) (by omega) hlt hseal (readU32_agree hend hsame)
  · have hi' : j / 12 < keys.length := by omega
    have hsame := h.2 (j / 12) (hnum ▸ hi')
    have hend : pageHeaderSize + j / 12 * 12 + 4 + 8 ≤ pageSize := by
      simp only [pageHeaderSize, pageSize]
      omega
    exact getD_eq_zero_of_agree (by omega) (by omega) hlt hseal (readU64_agree hend hsame)

end

/-! ## Contents -/

namespace PageContents

/-- The header and the payload of the page. -/
def header : PageContents → Header
  | leaf rows next prev => leafHeader rows next prev
  | rowBranch _ keys => BranchFormat.branchHeader keys
  | idxBranch _ keys => BranchFormat.branchHeader keys
  | overflow data next => ⟨magicNumber, pageOverflow, data.length, 0, next, 0⟩

def payload : PageContents → List UInt8
  | leaf rows _ _ => leafBody rows
  | rowBranch children keys => BoogyDb.rowBranch.branchBody children keys
  | idxBranch children keys => BoogyDb.idxBranch.branchBody children keys
  | overflow data _ => data

variable {c : PageContents} {inner : Aes256Gcm} {nonce : List UInt8}

theorem page_eq (c : PageContents) : c.page = pageOf c.header c.payload := by
  cases c <;> rfl

/-- What the restored page must agree on covers the contents. -/
theorem zero_of_sameOn (hpage : c.InPage) (h : c.SameOn (sealedPage c.header c.payload)) {j : ℕ}
    (hseal : sealedSize ≤ j) (hlt : j < payloadSize) : c.payload.getD j 0 = 0 := by
  obtain ⟨-, h⟩ := h
  rcases Nat.lt_or_ge j c.payload.length with hj | hj
  · cases c with
    | leaf rows next prev => exact zero_of_sameRows hpage.1 hpage.2 h hseal hlt hj
    | rowBranch children keys => exact zero_of_sameEntries hpage h hseal hj
    | idxBranch children keys =>
        -- the entries of a full index branch end before the seal
        have hlen : (BoogyDb.idxBranch.branchBody children keys).length ≤ sealedSize := by
          have hmax : keys.length ≤ 96 := BranchFormat.BranchFits.length_le hpage
          have hsize : BoogyDb.idxBranch.entrySize = 42 := rfl
          rw [BranchFormat.length_branchBody (BranchFormat.BranchFits.length_eq hpage), hsize]
          simp only [sealedSize, encryptedPayloadSize, pageSize, nonceSize, tagSize, pageHeaderSize]
          omega
        exact absurd (hj.trans_le hlen) (Nat.not_lt.mpr hseal)
    | overflow data next =>
        have hlen : (overflowPage data next).overflowPayloadLen = data.length := by
          rw [Page.overflowPayloadLen, overflowPage, Lays.pageOf.numRows]
          exact Nat.mod_eq_of_lt (lt_of_le_of_lt hpage (by decide))
        have hlen' : (sealedPage (overflow data next).header data).overflowPayloadLen =
            data.length := by
          rw [Page.overflowPayloadLen, sealedPage, Lays.pageOf.numRows]
          exact Nat.mod_eq_of_lt (lt_of_le_of_lt hpage (by decide))
        have hmax : data.length ≤ 4076 := hpage
        have hend : pageHeaderSize + data.length ≤ pageSize := by
          simp only [pageHeaderSize, pageSize]
          omega
        have hwindow : ∀ p : Page, bytesOf p.data pageHeaderSize (pageHeaderSize + data.length) =
            .ok (slice p.data pageHeaderSize (pageHeaderSize + data.length)) :=
          fun p => bytesOf_ok (Nat.le_add_right _ _) (by rw [p.size]; exact hend)
        have hsame : readOverflowPayload (sealedPage (overflow data next).header data) =
            readOverflowPayload (overflowPage data next) := h
        rw [readOverflowPayload, readOverflowPayload, hlen, hlen', hwindow, hwindow] at hsame
        have hj : j < data.length := hj
        exact getD_eq_zero_of_agree (Nat.le_add_right _ _) (by omega) hlt hseal
          (Except.ok.inj hsame)
  · rw [List.getD_eq_default _ _ hj]

/-- The bytes behind the seal are payload bytes. -/
theorem zeroBehindSeal_iff (c : PageContents) : c.ZeroBehindSeal ↔
    ∀ j, sealedSize ≤ j → j < payloadSize → c.payload.getD j 0 = 0 := by
  have hslice : slice c.page.data encryptedPayloadSize (pageSize - checksumSize) =
      slice (pad payloadSize c.payload) sealedSize payloadSize := by
    rw [page_eq]
    show slice (c.header.bytes ++ pad payloadSize c.payload ++ _) _ _ = _
    rw [List.append_assoc, slice_append_right _ (by rw [Header.length_bytes]; decide),
      Header.length_bytes, slice_append_left _ (by rw [length_pad]; decide)]
    rfl
  have hlen : (pad payloadSize c.payload).length = payloadSize := length_pad _ _
  have hbyte : ∀ k, sealedSize + k < payloadSize →
      (slice (pad payloadSize c.payload) sealedSize payloadSize).getD k 0 =
        c.payload.getD (sealedSize + k) 0 := by
    intro k hk
    rw [getD_slice _ hk, getD_pad _ hk]
  rw [ZeroBehindSeal, hslice]
  constructor
  · intro h j hseal hj
    have hk := hbyte (j - sealedSize) (by omega)
    rw [Nat.add_sub_cancel' hseal] at hk
    rw [← hk, List.getD_eq_getElem _ _ (by rw [length_slice hlen.ge]; omega)]
    exact h _ (List.getElem_mem _)
  · intro h b hb
    obtain ⟨k, hk, rfl⟩ := List.getElem_of_mem hb
    rw [length_slice hlen.ge] at hk
    have hget := hbyte k (by omega)
    rw [List.getD_eq_getElem _ _ (by rw [length_slice hlen.ge]; exact hk)] at hget
    rw [hget]
    exact h _ (Nat.le_add_right _ _) (by omega)

/-- A page whose contents are zero behind the seal is restored as it was. -/
theorem sealedPage_eq (h : ∀ j, sealedSize ≤ j → j < payloadSize → c.payload.getD j 0 = 0) :
    sealedPage c.header c.payload = c.page := by
  have hpad : pad payloadSize (c.payload.take sealedSize) = pad payloadSize c.payload := by
    refine List.ext_getElem (by rw [length_pad, length_pad]) fun j hj hj' => ?_
    rw [length_pad] at hj
    have hcut := getD_pad (c.payload.take sealedSize) hj
    have hwhole := getD_pad c.payload hj
    rw [List.getD_eq_getElem _ _ (by rw [length_pad]; exact hj)] at hcut hwhole
    rw [hcut, hwhole]
    rcases Nat.lt_or_ge j sealedSize with hlt | hge
    · rw [List.getD_eq_getElem?_getD, List.getD_eq_getElem?_getD, List.getElem?_take_of_lt hlt]
    · rw [h j hge hj, List.getD_eq_default]
      rw [List.length_take]
      exact (Nat.min_le_left _ _).trans hge
  apply Page.ext
  rw [page_eq]
  show c.header.bytes ++ pad payloadSize (c.payload.take sealedSize) ++ _ = _
  rw [hpad]
  rfl

/-- **The contents of a page survive exactly when its image is zero behind the bytes
that are encrypted.** -/
theorem survives_iff (hnonce : nonce.length = nonceSize) (hpage : c.InPage) :
    c.Survives inner nonce ↔ c.ZeroBehindSeal := by
  obtain ⟨raw, hseal, hrestore⟩ := @restorePage_sealPage inner nonce _ hnonce c.header c.payload
  rw [← page_eq] at hseal
  rw [zeroBehindSeal_iff]
  constructor
  · rintro ⟨raw', restored, hseal', hrestore', hsame⟩ j hj hlt
    obtain rfl := Except.ok.inj (hseal.symm.trans hseal')
    obtain rfl := Except.ok.inj (hrestore.symm.trans hrestore')
    exact zero_of_sameOn hpage hsame hj hlt
  · intro h
    refine ⟨raw, _, hseal, hrestore, ?_⟩
    rw [show pageOf c.header (c.payload.take sealedSize) = c.page from sealedPage_eq h]
    cases c with
    | leaf rows next prev => exact ⟨rfl, fun i hi => ⟨rfl, rfl⟩⟩
    | rowBranch children keys => exact ⟨rfl, fun i hi => rfl, fun i hi => rfl⟩
    | idxBranch children keys => exact ⟨rfl, fun i hi => rfl, fun i hi => rfl⟩
    | overflow data next => exact ⟨rfl, rfl⟩

end PageContents

/-! ## The pages of the trees -/

section

variable {g : WriteGuard} {root p : ℕ} {branches : List ℕ}

theorem TreeOf.exists_contents {κ α : Type} [LinearOrder κ] {fmt : BranchFormat κ}
    {cell : κ × α → List UInt8} {leaves : List (FencedTree.Leaf κ α)}
    (h : TreeOf fmt cell g root leaves branches) (branch : List ℕ → List κ → PageContents)
    (hbranch : ∀ children keys, (branch children keys).page = fmt.branchPage children keys ∧
      (fmt.BranchFits children keys → (branch children keys).InPage))
    (hp : p ∈ leaves.map FencedTree.Leaf.page ++ branches) :
    ∃ c : PageContents, g.view p = .ok c.page ∧ c.InPage := by
  rcases List.mem_append.mp hp with hp | hp
  · obtain ⟨l, hl, rfl⟩ := List.mem_map.mp hp
    obtain ⟨pre, post, rfl⟩ := List.append_of_mem hl
    exact ⟨.leaf (rowsOf cell l) _ _, h.chained.leafAt.view, h.chained.leafAt.fits.image⟩
  · obtain ⟨d, hspans⟩ := h.spans
    obtain ⟨children, keys, hview, hfits⟩ := hspans.exists_branch hp
    obtain ⟨hpage, hin⟩ := hbranch children keys
    exact ⟨branch children keys, by rw [hview, hpage], hin hfits⟩

/-- The pages of an index tree are page images. -/
theorem TreeOf.exists_idx_contents {α : Type} {cell : List UInt8 × α → List UInt8}
    {leaves : List (FencedTree.Leaf (List UInt8) α)}
    (h : TreeOf idxBranch cell g root leaves branches)
    (hp : p ∈ leaves.map FencedTree.Leaf.page ++ branches) :
    ∃ c : PageContents, g.view p = .ok c.page ∧ c.InPage :=
  h.exists_contents .idxBranch (fun _ _ => ⟨rfl, id⟩) hp

theorem ChainAt.exists_contents {v : ℕ → Result Page} {chain : List (ℕ × List UInt8)}
    (h : ChainAt v chain) (hp : p ∈ chain.map Prod.fst) :
    ∃ c : PageContents, v p = .ok c.page ∧ c.InPage := by
  induction chain with
  | nil => exact absurd hp List.not_mem_nil
  | cons entry chain ih =>
      obtain ⟨pageNo, data⟩ := entry
      obtain ⟨⟨-, -, -, hlen, hview⟩, hrest⟩ := h
      rcases List.mem_cons.mp hp with rfl | hp
      · exact ⟨.overflow data (chainHead chain), hview, hlen⟩
      · exact ih hrest hp

theorem KeptAs.exists_contents {v : ℕ → Result Page} {row cell : List UInt8}
    {chain : List (ℕ × List UInt8)} (h : KeptAs v row cell chain)
    (hp : p ∈ chain.map Prod.fst) : ∃ c : PageContents, v p = .ok c.page ∧ c.InPage := by
  cases h with
  | inline hplain => exact absurd hp List.not_mem_nil
  | overflow hchain hdata hlen hlong => exact hchain.exists_contents hp

/-- The pages of a table tree and of its overflow chains are page images. -/
theorem RowTree.exists_contents {leaves : List (FencedTree.Leaf UInt64 StoredRow)}
    (h : RowTree g root leaves branches)
    (hp : p ∈ leaves.map FencedTree.Leaf.page ++ branches ∨
      ∃ e ∈ FencedTree.contents leaves, p ∈ chainPages e) :
    ∃ c : PageContents, g.view p = .ok c.page ∧ c.InPage := by
  rcases hp with hp | ⟨e, he, hp⟩
  · exact h.tree.exists_contents .rowBranch (fun _ _ => ⟨rfl, id⟩) hp
  · exact (h.kept e he).kept.exists_contents hp

end

/-- **Encrypted page fidelity**: the contents of a page come back from the file
exactly when its image is zero behind the bytes that are encrypted. -/
theorem encrypted_page_survives_iff (inner : Aes256Gcm) {nonce : List UInt8}
    (hnonce : nonce.length = nonceSize) {c : PageContents} (hpage : c.InPage) :
    c.Survives inner nonce ↔ c.ZeroBehindSeal := PageContents.survives_iff hnonce hpage

/-- The pages of a table tree and of its overflow chains, in every run whose insertions find
room. -/
theorem StoredRun.pages_survive_iff {g₀ g : WriteGuard} {root : ℕ}
    {m : UInt64 → Option (List UInt8)} (h : StoredRun InsertRoom Storable g₀ root g m)
    (inner : Aes256Gcm) {nonce : List UInt8} (hnonce : nonce.length = nonceSize) :
    ∃ P, RowsAt root m g P ∧ ∀ p ∈ P, ∃ c : PageContents, g.view p = .ok c.page ∧
      (c.Survives inner nonce ↔ c.ZeroBehindSeal) := by
  obtain ⟨leaves, branches, htree, hrep⟩ := h.holds
  refine ⟨_, ⟨leaves, branches, htree, hrep, rfl⟩, fun p hp => ?_⟩
  obtain ⟨c, hview, hin⟩ := htree.exists_contents hp
  exact ⟨c, hview, PageContents.survives_iff hnonce hin⟩

/-- The pages of an index tree, in every run whose splits tell the halves apart. -/
theorem IndexRun.pages_survive_iff {g₀ g : WriteGuard} {root : ℕ} {s : Set (List UInt8)}
    (h : IndexRun InsertSeparates g₀ root g s) (inner : Aes256Gcm) {nonce : List UInt8}
    (hnonce : nonce.length = nonceSize) :
    ∃ P, KeysAt root s g P ∧ ∀ p ∈ P, ∃ c : PageContents, g.view p = .ok c.page ∧
      (c.Survives inner nonce ↔ c.ZeroBehindSeal) := by
  obtain ⟨leaves, branches, htree, hmem⟩ := h.holds
  refine ⟨_, ⟨leaves, branches, htree, hmem, rfl⟩, fun p hp => ?_⟩
  obtain ⟨c, hview, hin⟩ := htree.exists_idx_contents hp
  exact ⟨c, hview, PageContents.survives_iff hnonce hin⟩

/-- Every page comes back with its contents. -/
def EncryptedPagesFaithful : Prop :=
  ∀ (inner : Aes256Gcm) (nonce : List UInt8), nonce.length = nonceSize →
    ∀ c : PageContents, c.InPage → c.Survives inner nonce

end

/-! ## A page that does not come back -/

/-- AES-256-GCM under a key. -/
def aes256Gcm (key : List UInt8) : Aes256Gcm where
  encrypt := AesGcm.encrypt key
  decrypt := AesGcm.decrypt key
  decrypt_encrypt nonce _ hlen := AesGcm.decrypt_encrypt key nonce hlen

/-- A row with one Blob, of the greatest length a leaf takes. -/
def fullRow : List UInt8 := encodeRow 1 [(0, .blob (List.replicate 4055 1))]

theorem fullRow_eq : fullRow =
    [1, 0, 0, 0, 0, 0, 0, 0, 1, 0, 0, 0, 0, 0, 4, 215, 15, 0, 0] ++ List.replicate 4055 1 := by
  have hvalue : encodeValue (.blob (List.replicate 4055 1)) =
      [4, 215, 15, 0, 0] ++ List.replicate 4055 1 := by
    rw [encodeValue, List.length_replicate]
    rfl
  rw [fullRow, encodeRow, sortColumns_eq_self (List.pairwise_singleton _ _)]
  show leBytes 8 1 ++ leBytes 2 1 ++ leBytes 4 0 ++ (encodeValue _ ++ []) = _
  rw [hvalue, List.append_nil, ← List.append_assoc]
  rfl

/-- **Not every page of an encrypted table comes back**: the leaf with the row does not. -/
theorem not_encrypted_pages_faithful : ¬ @EncryptedPagesFaithful crc32Ieee := by
  let := crc32Ieee
  intro h
  have hlen : fullRow.length = maxSingleRow := by
    rw [fullRow_eq, List.length_append, List.length_replicate]
    rfl
  have hused : usedSize [fullRow] ≤ pageSize := by
    rw [usedSize, dataSize_cons, hlen]
    decide
  have hpage : (PageContents.leaf [fullRow] 0 0).InPage := ⟨hused, by decide⟩
  have hzero := (PageContents.survives_iff rfl hpage).mp
    (h (aes256Gcm (List.replicate 32 0)) (List.replicate nonceSize 0) List.length_replicate _ hpage)
  have hbyte := (PageContents.zeroBehindSeal_iff _).mp hzero sealedSize le_rfl (by decide)
  have hpayload : (PageContents.leaf [fullRow] 0 0).payload = leBytes 2 18 ++ fullRow := by
    show offsetArray 18 [fullRow] ++ (fullRow ++ []) = _
    rw [List.append_nil]
    rfl
  rw [hpayload, fullRow_eq, ← List.append_assoc, List.getD_append_right _ _ _ _ (by decide),
    List.getD_replicate _ (by decide)] at hbyte
  exact absurd hbyte (by decide)

/-- A leaf whose one row ends where the encrypted bytes of the page end. -/
def sealedRow : List UInt8 := List.replicate 4050 1

theorem usedSize_sealedRow : usedSize [sealedRow] = encryptedPayloadSize := by
  rw [usedSize, dataSize_cons, sealedRow, List.length_replicate]
  rfl

/-- The leaf comes back, filled up to the end of what is encrypted. -/
theorem encrypted_page_survives_full : letI := crc32Ieee
    (PageContents.leaf [sealedRow] 0 0).Survives (aes256Gcm (List.replicate 32 0))
      (List.replicate nonceSize 0) := by
  let := crc32Ieee
  have hpage : (PageContents.leaf [sealedRow] 0 0).InPage :=
    ⟨by rw [usedSize_sealedRow]; decide, by decide⟩
  refine (encrypted_page_survives_iff _ List.length_replicate hpage).mpr ?_
  refine (PageContents.zeroBehindSeal_iff _).mpr fun j hseal _ => ?_
  refine List.getD_eq_default _ _ (le_trans ?_ hseal)
  show (leBytes 2 18 ++ [] ++ (sealedRow ++ [])).length ≤ sealedSize
  rw [List.length_append, List.length_append, List.append_nil, sealedRow, List.length_replicate]
  decide

end BoogyDb
