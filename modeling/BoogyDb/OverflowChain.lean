import BoogyDb.Overflow

/-!
# What an overflow chain holds

`ChainAt v chain` says that the pages of `chain`, a list of page numbers and
payloads, are on the view `v` and linked in this order.  `writeChain` puts such a
chain on fresh pages, and `readChain` reads its payloads back.

`KeptAs v cell row chain` is what it is for a leaf cell to stand for a row: it is
the row itself and is not mistaken for an overflow cell, or it is the trailer
form over a chain with the rest of the row.  A kept row is what `reassembleRow`
returns, as long as it is not longer than the reassembly limit.
-/

namespace BoogyDb

open Bytes Wp WriteGuard

/-! ## Trailers -/

theorem length_appendOverflowTrailer (buf : List UInt8) (firstPage remaining : ℕ) :
    (appendOverflowTrailer buf firstPage remaining).length = buf.length + overflowTrailerSize := by
  simp [appendOverflowTrailer, overflowMagic, overflowTrailerSize]

theorem hasOverflow_appendOverflowTrailer (buf : List UInt8) (firstPage remaining : ℕ) :
    hasOverflow (appendOverflowTrailer buf firstPage remaining) = true := by
  have hlen := length_appendOverflowTrailer buf firstPage remaining
  rw [hasOverflow, if_neg (by omega), hlen, Nat.add_sub_cancel]
  simp [appendOverflowTrailer, overflowMagic]

theorem decodeOverflowTrailer_append {firstPage remaining : ℕ} (buf : List UInt8)
    (hfirst : firstPage < 2 ^ 32) (hremaining : remaining < 2 ^ 32) :
    decodeOverflowTrailer (appendOverflowTrailer buf firstPage remaining) =
      .ok (buf.length, firstPage, remaining) := by
  have hlen := length_appendOverflowTrailer buf firstPage remaining
  have h10 : overflowTrailerSize = 10 := rfl
  have hread₁ : readLe (appendOverflowTrailer buf firstPage remaining) (buf.length + 2) 4 =
      firstPage := by
    refine @readLe_eq_of_append _ (buf ++ overflowMagic) (leBytes 4 remaining) _ 4 _ ?_ ?_ hfirst
    · simp [appendOverflowTrailer]
    · simp [overflowMagic]
  have hread₂ : readLe (appendOverflowTrailer buf firstPage remaining) (buf.length + 6) 4 =
      remaining := by
    refine @readLe_eq_of_append _ (buf ++ overflowMagic ++ leBytes 4 firstPage) [] _ 4 _ ?_ ?_
      hremaining
    · simp [appendOverflowTrailer]
    · simp [overflowMagic]
  rw [decodeOverflowTrailer, if_neg (by omega), hlen, Nat.add_sub_cancel,
    readU32_ok (by omega), ok_bind, readU32_ok (by omega), ok_bind, hread₁, hread₂]
  rfl

/-! ## Overflow pages -/

section

variable [Crc32Fast]

def overflowPage (data : List UInt8) (nextPage : ℕ) : Page :=
  pageOf ⟨magicNumber, pageOverflow, data.length, 0, nextPage, 0⟩ data

theorem buildOverflowPage_ok {data : List UInt8} {nextPage : ℕ}
    (h : data.length ≤ overflowPayloadMax) :
    buildOverflowPage data nextPage = .ok (overflowPage data nextPage) := by
  have hmax : overflowPayloadMax = payloadSize := rfl
  have hcopy : pageHeaderSize + data.length ≤ pageSize := by
    rw [hmax] at h
    simp only [pageHeaderSize, payloadSize, pageSize] at *
    omega
  have hlays : Lays (Page.newOverflow.write pageHeaderSize data)
      ⟨magicNumber, pageOverflow, 0, 0, 0, 0⟩ data := by
    rw [newOverflow_eq]
    refine Lays.pageOf.write_payload le_rfl (by omega) ?_
    rw [Nat.sub_self]
    exact @blit_pad_end payloadSize [] data (by simpa [← hmax] using h)
  rw [buildOverflowPage, if_neg (by omega), Page.copyFromSlice, if_pos hcopy, ok_bind,
    Page.setOverflowPayloadLen, Page.setOverflowNext,
    ((hlays.setNumRows data.length).setNextLeaf nextPage).updateChecksum]
  rfl

theorem readOverflowPayload_overflowPage {data : List UInt8} {nextPage : ℕ}
    (h : data.length ≤ overflowPayloadMax) :
    readOverflowPayload (overflowPage data nextPage) = .ok data := by
  have hmax : overflowPayloadMax = payloadSize := rfl
  have hlen : (overflowPage data nextPage).overflowPayloadLen = data.length := by
    rw [Page.overflowPayloadLen, overflowPage, Lays.pageOf.numRows]
    refine Nat.mod_eq_of_lt (h.trans_lt ?_)
    decide
  have hslice := @Lays.slice_payload _ _ _ pageHeaderSize (pageHeaderSize + data.length)
    (@Lays.pageOf ⟨magicNumber, pageOverflow, data.length, 0, nextPage, 0⟩ data _) le_rfl le_rfl
    (hmax ▸ h)
  rw [Nat.sub_self, Nat.add_sub_cancel_left, slice_zero_length] at hslice
  rw [readOverflowPayload, hlen, bytesOf_ok (Nat.le_add_right _ _)]
  · exact congrArg Except.ok hslice
  · rw [Page.size, pageSize]
    rw [hmax] at h
    simp only [pageHeaderSize, payloadSize] at *
    omega

theorem overflowNext_overflowPage {data : List UInt8} {nextPage : ℕ} (h : nextPage < 2 ^ 32) :
    (overflowPage data nextPage).overflowNext = nextPage := by
  rw [Page.overflowNext, overflowPage, Lays.pageOf.nextLeaf]
  exact Nat.mod_eq_of_lt h

/-! ## Chains -/

/-- The first page of a chain; page `0` ends one. -/
def chainHead : List (ℕ × List UInt8) → ℕ
  | [] => 0
  | (pageNo, _) :: _ => pageNo

/-- The pages of the chain are there, with their payloads and links. -/
def ChainAt (v : ℕ → Result Page) : List (ℕ × List UInt8) → Prop
  | [] => True
  | (pageNo, data) :: chain =>
      (0 < pageNo ∧ pageNo < pageNoLimit ∧ data ≠ [] ∧ data.length ≤ overflowPayloadMax ∧
        v pageNo = .ok (overflowPage data (chainHead chain))) ∧ ChainAt v chain

def chainData (chain : List (ℕ × List UInt8)) : List UInt8 := (chain.map Prod.snd).flatten

theorem ChainAt.congr {v v' : ℕ → Result Page} {chain : List (ℕ × List UInt8)}
    (h : ChainAt v chain) (heq : ∀ p ∈ chain.map Prod.fst, v' p = v p) : ChainAt v' chain := by
  induction chain with
  | nil => trivial
  | cons entry chain ih =>
      obtain ⟨pageNo, data⟩ := entry
      rw [List.map_cons, List.forall_mem_cons] at heq
      refine ⟨?_, ih h.2 heq.2⟩
      rw [heq.1]
      exact h.1

theorem ChainAt.head_lt {v : ℕ → Result Page} {chain : List (ℕ × List UInt8)}
    (h : ChainAt v chain) : chainHead chain < pageNoLimit := by
  cases chain with
  | nil => exact Nat.two_pow_pos _
  | cons entry chain => exact h.1.2.1

/-- **Reading a chain gives its payloads**, when the fuel covers its pages. -/
theorem readChain_chainAt {v : ℕ → Result Page} {chain : List (ℕ × List UInt8)}
    (h : ChainAt v chain) {fuel : ℕ} (hfuel : chain.length ≤ fuel) (full : List UInt8) :
    readChain v fuel full (chainHead chain) (chainData chain).length =
      .ok (full ++ chainData chain) := by
  induction chain generalizing fuel full with
  | nil =>
      have hstop : readChain v fuel full 0 0 = .ok full := by
        cases fuel <;> rfl
      simpa [chainHead, chainData] using hstop
  | cons entry chain ih =>
      obtain ⟨pageNo, data⟩ := entry
      obtain ⟨⟨hpos, hlimit, hne, hlen, hview⟩, hrest⟩ := h
      have hdata : chainData ((pageNo, data) :: chain) = data ++ chainData chain := rfl
      have hdpos := List.length_pos_iff.mpr hne
      obtain ⟨fuel, rfl⟩ := Nat.exists_eq_add_of_le' hfuel
      rw [hdata, List.length_append]
      rw [List.length_cons, ← Nat.add_assoc, readChain, if_neg (by simp only [chainHead]; omega)]
      dsimp only [chainHead]
      rw [hview, ok_bind, readOverflowPayload_overflowPage hlen, ok_bind,
        overflowNext_overflowPage hrest.head_lt, Nat.min_eq_left (Nat.le_add_right _ _),
        List.take_length, Nat.add_sub_cancel_left, ih hrest (Nat.le_add_left _ _),
        List.append_assoc]

/-- `g'` has more pages than `g`, and the pages of `g` as they were. -/
structure Appends (g g' : WriteGuard) : Prop where
  view_eq : ∀ q, q < g.bound → g'.view q = g.view q
  bound_le : g.bound ≤ g'.bound

theorem Appends.refl (g : WriteGuard) : Appends g g := ⟨fun _ _ => rfl, le_rfl⟩

theorem Appends.trans {g g' g'' : WriteGuard} (h : Appends g g') (h' : Appends g' g'') :
    Appends g g'' where
  view_eq q hq := by rw [h'.view_eq q (hq.trans_le h.bound_le), h.view_eq q hq]
  bound_le := h.bound_le.trans h'.bound_le

/-- A page that was just taken is written. -/
theorem Appends.allocate_put {g g₁ g₂ : WriteGuard} {page : Page} (halloc : Allocates g g₁)
    (hputs : Puts g₁ g₂ g.bound page) : Appends g g₂ where
  view_eq q hq := by rw [hputs.view_of_ne hq.ne, halloc.view_of_ne hq.ne]
  bound_le := by
    rw [hputs.bound, halloc.bound]
    exact Nat.le_succ _

/-- Writing chunks in front of a chain: the chain they make is on new pages. -/
theorem wp_writeChain {g : WriteGuard} {E : Fault → WriteGuard → Prop}
    {chunks : List (List UInt8)} {chain : List (ℕ × List UInt8)} (hchain : ChainAt g.view chain)
    (hpos : 0 < g.bound) (hbelow : ∀ p ∈ chain.map Prod.fst, p < g.bound)
    (hchunks : ∀ chunk ∈ chunks, chunk ≠ [] ∧ chunk.length ≤ overflowPayloadMax)
    (herr : ∀ e g', AllocFault e → Appends g g' → E e g') :
    wp (writeChain chunks (chainHead chain))
      (fun first g' => Appends g g' ∧ ∃ front, first = chainHead (front ++ chain) ∧
        ChainAt g'.view (front ++ chain) ∧ chainData front = chunks.reverse.flatten ∧
        front.length = chunks.length ∧
        ∀ p ∈ front.map Prod.fst, g.bound ≤ p ∧ p < g'.bound) E g := by
  induction chunks generalizing g chain with
  | nil => exact ⟨.refl g, [], rfl, hchain, rfl, rfl, by simp⟩
  | cons chunk chunks ih =>
      obtain ⟨⟨hne, hlen⟩, hchunks⟩ := List.forall_mem_cons.mp hchunks
      rw [writeChain]
      refine wp_bind.mpr (wp_allocatePage (fun g₁ halloc => ?_) fun _ e he => herr e g he (.refl g))
      rw [wp_bind, wp_lift_ok (buildOverflowPage_ok hlen), wp_bind]
      refine wp_putPage fun g₂ hputs => ?_
      have happ : Appends g g₂ := .allocate_put halloc hputs
      have hbound : g₂.bound = g.bound + 1 := by rw [hputs.bound, halloc.bound]
      have hchain₂ : ChainAt g₂.view ((g.bound, chunk) :: chain) :=
        ⟨⟨hpos, halloc.bound_lt, hne, hlen, hputs.view_self⟩,
          hchain.congr fun p hp => happ.view_eq p (hbelow p hp)⟩
      have hrest := @ih g₂ ((g.bound, chunk) :: chain) hchain₂ (by omega)
        (by
          intro p hp
          rcases List.mem_cons.mp hp with rfl | hp
          · dsimp only
            omega
          · have := hbelow p hp
            omega)
        hchunks fun e g' he happ' => herr e g' he (happ.trans happ')
      refine hrest.post ?_
      rintro first g' ⟨happ', front, hfirst, hfront, hdata, hlength, hpages⟩
      refine ⟨happ.trans happ', front ++ [(g.bound, chunk)], ?_, ?_, ?_, ?_, ?_⟩
      · simpa using hfirst
      · simpa using hfront
      · simp only [chainData] at hdata ⊢
        simp [hdata]
      · simp [hlength]
      · intro p hp
        rw [List.map_append, List.mem_append] at hp
        have hle := happ'.bound_le
        rcases hp with hp | hp
        · have := hpages p hp
          omega
        · rw [List.map_singleton, List.mem_singleton] at hp
          subst hp
          omega

/-! ## Rows and their cells -/

/-- The bytes of a long row that stay in its cell. -/
def inlineDataLen : ℕ := maxSingleRow - overflowTrailerSize

/-- The cell stands for the row: as it is, or with its rest in the chain. -/
inductive KeptAs (v : ℕ → Result Page) (row : List UInt8) :
    List UInt8 → List (ℕ × List UInt8) → Prop
  | inline (h : hasOverflow row = false) : KeptAs v row row []
  | overflow {chain : List (ℕ × List UInt8)} (hchain : ChainAt v chain)
      (hdata : chainData chain = row.drop inlineDataLen)
      (hlen : chain.length ≤ (row.length - inlineDataLen) / overflowPayloadMax + 1)
      (hlong : inlineDataLen ≤ row.length) :
      KeptAs v row (appendOverflowTrailer (row.take inlineDataLen) (chainHead chain)
        (row.length - inlineDataLen)) chain

theorem KeptAs.congr {v v' : ℕ → Result Page} {row cell : List UInt8}
    {chain : List (ℕ × List UInt8)} (h : KeptAs v row cell chain)
    (heq : ∀ p ∈ chain.map Prod.fst, v' p = v p) : KeptAs v' row cell chain := by
  cases h with
  | inline h => exact .inline h
  | overflow hchain hdata hlen hlong => exact .overflow (hchain.congr heq) hdata hlen hlong

/-- **A kept row is put together again.** -/
theorem KeptAs.reassemble {v : ℕ → Result Page} {row cell : List UInt8}
    {chain : List (ℕ × List UInt8)} (h : KeptAs v row cell chain)
    (hlen : row.length ≤ maxReassembleSize) : reassembleRow v cell = .ok row := by
  cases h with
  | inline h =>
      rw [reassembleRow, h]
      rfl
  | overflow hchain hdata hcount hlong =>
      have htake : (row.take inlineDataLen).length = inlineDataLen := by
        rw [List.length_take, Nat.min_eq_left hlong]
      have hsmall : maxReassembleSize < 2 ^ 32 := by decide
      have hdecode := @decodeOverflowTrailer_append (chainHead chain) (row.length - inlineDataLen)
        (row.take inlineDataLen) hchain.head_lt (by omega)
      rw [reassembleRow, hasOverflow_appendOverflowTrailer, if_neg (by simp), hdecode, ok_bind]
      dsimp only
      have hinline : slice (appendOverflowTrailer (row.take inlineDataLen) (chainHead chain)
          (row.length - inlineDataLen)) 0 inlineDataLen = row.take inlineDataLen := by
        rw [appendOverflowTrailer, List.append_assoc, List.append_assoc]
        exact slice_eq_of_append (List.nil_append _).symm rfl
          (htake.symm.trans (Nat.zero_add _).symm)
      have hrest : row.length - inlineDataLen = (chainData chain).length := by
        rw [hdata, List.length_drop]
      rw [htake, if_neg (by omega), bytesOf_ok (Nat.zero_le _) (by
        rw [length_appendOverflowTrailer, htake]
        exact Nat.le_add_right _ _), hinline, ok_bind]
      have hread := readChain_chainAt hchain (hcount.trans (Nat.le_succ _)) (row.take inlineDataLen)
      rw [← hrest] at hread
      rw [hread, hdata, List.take_append_drop]

/-- A long row is kept in a cell and a chain of new pages. -/
theorem wp_writeOverflowRow {g : WriteGuard} {E : Fault → WriteGuard → Prop} {row : List UInt8}
    (hlong : inlineDataLen ≤ row.length) (hpos : 0 < g.bound)
    (herr : ∀ e g', AllocFault e → Appends g g' → E e g') :
    wp (writeOverflowRow row maxSingleRow)
      (fun cell g' => Appends g g' ∧ cell.length = inlineDataLen + overflowTrailerSize ∧
        cell.take inlineDataLen = row.take inlineDataLen ∧
        ∃ chain, KeptAs g'.view row cell chain ∧
          ∀ p ∈ chain.map Prod.fst, g.bound ≤ p ∧ p < g'.bound) E g := by
  have htake : (row.take inlineDataLen).length = inlineDataLen := by
    rw [List.length_take, Nat.min_eq_left hlong]
  have hrest : slice row inlineDataLen row.length = row.drop inlineDataLen := slice_to_end row _
  have hbytes : bytesOf row (maxSingleRow - overflowTrailerSize) row.length =
      .ok (row.drop inlineDataLen) := by
    rw [← hrest]
    exact bytesOf_ok hlong le_rfl
  rw [writeOverflowRow, wp_bind, wp_lift_ok hbytes]
  have hchain := @wp_writeChain _ g E (chunks overflowPayloadMax (row.drop inlineDataLen)).reverse
    [] trivial hpos (by simp)
    (fun chunk hc => (length_of_mem_chunks (List.mem_reverse.mp hc)).symm) herr
  refine wp_bind.mpr (hchain.post ?_)
  rintro first g' ⟨happ, front, rfl, hfront, hdata, hlength, hpages⟩
  rw [List.append_nil] at hfront
  rw [List.reverse_reverse, flatten_chunks (by decide)] at hdata
  rw [List.length_reverse] at hlength
  have hmax : maxSingleRow - overflowTrailerSize = inlineDataLen := rfl
  rw [List.append_nil, wp_pure, List.length_drop, hmax]
  refine ⟨happ, ?_, ?_, front, .overflow hfront hdata ?_ hlong, hpages⟩
  · rw [length_appendOverflowTrailer]
    exact congrArg (· + overflowTrailerSize) htake
  · rw [appendOverflowTrailer, List.append_assoc, List.append_assoc,
      List.take_append_of_le_length htake.ge, List.take_take, Nat.min_self]
  · rw [hlength]
    have := @length_chunks_le overflowPayloadMax (row.drop inlineDataLen)
    rwa [List.length_drop] at this

end

end BoogyDb
