import BoogyDb.OverflowChain
import BoogyDb.PageOwners
import BoogyDb.RegistryStream
import BoogyDb.SchemaWrites

/-!
# The registry is read back

The stream of the registry goes to page 0 and, if it is long, to a chain of overflow
pages behind it.  What is read from these pages is the stream, as long as the length
of the chain fits in the 32 bits that page 0 has for it, and so the tables come back
the same if and only if every length and count fits.
-/

namespace BoogyDb

open Bytes Wp

/-! ## Pages -/

section

variable [Crc32Fast]

/-- The overflow pages from `n` on that hold the chunks. -/
def registryChain : ℕ → List (List UInt8) → List (ℕ × Page)
  | _, [] => []
  | n, chunk :: chunks =>
      (n, overflowPage chunk (if chunks = [] then 0 else n + 1)) :: registryChain (n + 1) chunks

/-- Page 0 with the front of the stream and what stands behind it. -/
def registryPage (body : List UInt8) : Page := pageOf ⟨magicNumber, pageSystem, 0, 0, 0, 0⟩ body

/-- The front of a long stream on page 0 and the trailer for `n` and `len`. -/
def chainedBody (bytes : List UInt8) (n len : ℕ) : List UInt8 :=
  bytes.take systemInlineBudget ++ (overflowMagic ++ leBytes 4 n ++ leBytes 4 len)

/-- There is room for `k` more pages. -/
def HasRoom (g : WriteGuard) (k : ℕ) : Prop :=
  k = 0 ∨ (g.bound + k ≤ pageNoLimit ∧ g.writeState.newPageCount + k < pageNoLimit)

section

variable {γ : Type} {l : List γ} {g : WriteGuard}

/-- Pages are taken one after the other while there is room. -/
theorem allocate_pages (h : HasRoom g l.length) :
    wp (l.mapM fun _ => WriteGuard.allocatePage) (fun ns _ => ns = List.range' g.bound l.length)
      (fun _ _ => False) g := by
  induction l generalizing g with
  | nil => exact rfl
  | cons a l ih =>
      obtain ⟨hbound, hcount⟩ := h.resolve_left (Nat.succ_ne_zero _)
      rw [List.length_cons] at hbound hcount
      rw [List.mapM_cons, wp_bind]
      refine WriteGuard.wp_allocatePage_of_lt (by omega) (by omega) fun g₁ halloc => ?_
      have hbound₁ := halloc.bound
      have hcount₁ := halloc.newPageCount
      refine wp.bind (ih (.inr ⟨by omega, by omega⟩)) fun ns g₂ hns => ?_
      rw [wp_pure, hns, hbound₁, List.length_cons, List.range'_succ]

/-- Without room for the pages not all are taken. -/
theorem hasRoom_of_allocate :
    wlp (l.mapM fun _ => WriteGuard.allocatePage) (fun _ _ => HasRoom g l.length) g := by
  induction l generalizing g with
  | nil => exact .inl rfl
  | cons a l ih =>
      rw [List.mapM_cons]
      by_cases hroom : g.bound < pageNoLimit ∧ g.writeState.newPageCount + 1 < pageNoLimit
      · refine wp_bind.mpr (WriteGuard.wp_allocatePage_of_lt hroom.1 hroom.2 fun g₁ halloc => ?_)
        have hbound₁ := halloc.bound
        have hcount₁ := halloc.newPageCount
        refine wp.bind ih fun ns g₂ hrest => ?_
        rw [wp_pure, List.length_cons]
        rcases hrest with hzero | ⟨hbound, hcount⟩
        · exact .inr ⟨by omega, by omega⟩
        · exact .inr ⟨by omega, by omega⟩
      · refine wp_bind.mpr ?_
        rw [wp, WriteGuard.allocatePage]
        by_cases hbound : pageNoLimit ≤ g.bound
        · rw [if_pos hbound]
          trivial
        · rw [if_neg hbound, if_pos (by omega)]
          trivial

end

theorem linkChunks_registryChain {n : ℕ} {chunks : List (List UInt8)}
    (h : ∀ chunk ∈ chunks, chunk.length ≤ overflowPayloadMax) :
    linkChunks (List.range' n chunks.length) chunks = .ok (registryChain n chunks) := by
  induction chunks generalizing n with
  | nil => rfl
  | cons chunk chunks ih =>
      rw [List.forall_mem_cons] at h
      rw [List.length_cons, List.range'_succ, linkChunks, registryChain]
      have hnext : (List.range' (n + 1) chunks.length).headD 0 = if chunks = [] then 0 else n + 1 := by
        cases chunks <;> rfl
      rw [buildOverflowPage_ok h.1, ok_bind, ih h.2, ok_bind, hnext]
      rfl

theorem isOverflow_overflowPage (data : List UInt8) (nextPage : ℕ) :
    (overflowPage data nextPage).isOverflow = true := by
  rw [Page.isOverflow, overflowPage, Lays.pageOf.flags]
  show (pageOverflow % 65536 &&& pageOverflow != 0) = true
  decide

omit [Crc32Fast] in
theorem readRegistryChain_done {read : ℕ → Result Page} {len fuel current sofar : ℕ}
    {bytes : List UInt8} (h : len ≤ sofar) :
    readRegistryChain read len fuel bytes current sofar = .ok bytes := by
  rw [readRegistryChain.eq_def]
  dsimp only
  rw [if_neg (by omega), if_neg (by omega)]
  rfl

/-- Following the chain gives its payloads, cut at the length that is looked for. -/
theorem readRegistryChain_registryChain {read : ℕ → Result Page} {len fuel n sofar : ℕ}
    {chunks : List (List UInt8)} {bytes : List UInt8}
    (hchunks : ∀ chunk ∈ chunks, chunk ≠ [] ∧ chunk.length ≤ overflowPayloadMax)
    (hpages : ∀ p ∈ registryChain n chunks, read p.1 = .ok p.2) (hpos : 0 < n)
    (hn : n + chunks.length ≤ pageNoLimit) (hsofar : sofar ≤ len)
    (hlen : len ≤ sofar + chunks.flatten.length) (hfuel : len - sofar ≤ fuel) :
    readRegistryChain read len fuel bytes (if chunks = [] then 0 else n) sofar =
      .ok (bytes ++ chunks.flatten.take (len - sofar)) := by
  induction chunks generalizing n fuel bytes sofar with
  | nil =>
      rw [readRegistryChain_done (by simpa using hlen)]
      simp
  | cons chunk chunks ih =>
      rw [if_neg (List.cons_ne_nil _ _)]
      by_cases hmore : sofar < len
      · obtain ⟨⟨hne, hmax⟩, hchunks⟩ := List.forall_mem_cons.mp hchunks
        obtain ⟨hpage, hpages⟩ := List.forall_mem_cons.mp hpages
        have hdata := List.length_pos_iff.mpr hne
        rw [List.length_cons] at hn
        rw [List.flatten_cons, List.length_append] at hlen
        have hnext : (overflowPage chunk (if chunks = [] then 0 else n + 1)).overflowNext =
            if chunks = [] then 0 else n + 1 := by
          apply overflowNext_overflowPage
          have hlimit : pageNoLimit = 2 ^ 32 := rfl
          split
          · decide
          · have := List.length_pos_iff.mpr ‹_›
            omega
        obtain ⟨fuel, rfl⟩ : ∃ k, fuel = k + 1 := ⟨fuel - 1, by omega⟩
        rw [readRegistryChain, if_pos ⟨hpos.ne', hmore⟩]
        dsimp only at hpage ⊢
        rw [hpage, ok_bind, isOverflow_overflowPage]
        simp only [Bool.not_true, Bool.false_eq_true, if_false]
        rw [readOverflowPayload_overflowPage hmax, ok_bind, hnext,
          ih hchunks hpages (Nat.succ_pos n) (by omega) (by omega) (by omega) (by omega)]
        have htake : chunk.take (min (len - sofar) chunk.length) = chunk.take (len - sofar) := by
          rw [List.take_eq_take_iff]
          omega
        have hrest : len - (sofar + min (len - sofar) chunk.length) =
            len - sofar - chunk.length := by omega
        rw [htake, hrest, List.append_assoc, List.flatten_cons, List.take_append]
      · rw [readRegistryChain_done (by omega), Nat.sub_eq_zero_of_le (by omega)]
        simp

/-! ## Writing the registry and reading it back -/

variable {tables : List TableRecord} {next : UInt32} {g : WriteGuard}

/-- What does not fit on page 0. -/
def registryRest (tables : List TableRecord) (next : UInt32) : List UInt8 :=
  (serializeSystemMetas tables next).drop systemInlineBudget

/-- The rest in pieces of the size of an overflow page. -/
def registryChunks (tables : List TableRecord) (next : UInt32) : List (List UInt8) :=
  chunks overflowPayloadMax (registryRest tables next)

omit [Crc32Fast] in
theorem mem_registryChunks {chunk : List UInt8} (h : chunk ∈ registryChunks tables next) :
    chunk ≠ [] ∧ chunk.length ≤ overflowPayloadMax :=
  (length_of_mem_chunks h).symm

omit [Crc32Fast] in
theorem flatten_registryChunks : (registryChunks tables next).flatten = registryRest tables next :=
  flatten_chunks (by decide) _

omit [Crc32Fast] in
theorem registryChunks_ne_nil
    (h : systemInlineBudget < (serializeSystemMetas tables next).length) :
    registryChunks tables next ≠ [] := by
  intro hnil
  have hlen := congrArg List.length (@flatten_registryChunks tables next)
  rw [hnil, List.flatten_nil, List.length_nil, registryRest, List.length_drop] at hlen
  omega

theorem copy_newSystem {bytes : List UInt8} (h : bytes.length ≤ payloadSize) :
    ∃ page, Page.newSystem.copyFromSlice pageHeaderSize bytes = .ok page ∧
      Lays page ⟨magicNumber, pageSystem, 0, 0, 0, 0⟩ bytes := by
  have hcopy : pageHeaderSize + bytes.length ≤ pageSize := by
    simp only [pageHeaderSize, payloadSize, pageSize] at *
    omega
  refine ⟨_, by rw [Page.copyFromSlice, if_pos hcopy], ?_⟩
  rw [newSystem_eq]
  refine Lays.pageOf.write_payload le_rfl (by omega) ?_
  rw [Nat.sub_self]
  exact @blit_pad_end payloadSize [] bytes (by simpa using h)

/-- A short stream is kept on page 0. -/
theorem serializeSystemPage_inline
    (h : (serializeSystemMetas tables next).length ≤ systemInlineBudget) :
    serializeSystemPage tables next g =
      .ok (registryPage (serializeSystemMetas tables next), []) g := by
  have hbudget : systemInlineBudget ≤ payloadSize := by decide
  obtain ⟨page, hpage, hlays⟩ := copy_newSystem (h.trans hbudget)
  unfold serializeSystemPage
  dsimp only
  rw [if_pos h, hpage]
  show EStateM.Result.ok (page.updateChecksum, []) g = _
  rw [hlays.updateChecksum]
  rfl

omit [Crc32Fast] in
/-- The trailer is written behind the front of the stream. -/
theorem copy_trailer {page : Page} {front : List UInt8} (n len : ℕ)
    (hlays : Lays page ⟨magicNumber, pageSystem, 0, 0, 0, 0⟩ front)
    (hfront : front.length = systemInlineBudget) :
    ∃ page', page.copyFromSlice (pageHeaderSize + systemInlineBudget)
        (overflowMagic ++ leBytes 4 n ++ leBytes 4 len) = .ok page' ∧
      Lays page' ⟨magicNumber, pageSystem, 0, 0, 0, 0⟩
        (front ++ (overflowMagic ++ leBytes 4 n ++ leBytes 4 len)) := by
  have htrailer : (overflowMagic ++ leBytes 4 n ++ leBytes 4 len).length = 10 := by
    simp [overflowMagic]
  have hbudget : systemInlineBudget = 4066 := rfl
  refine ⟨_, by rw [Page.copyFromSlice, if_pos (by rw [htrailer]; decide)], ?_⟩
  refine hlays.write_payload (Nat.le_add_right _ _) (by rw [htrailer]; decide) ?_
  rw [Nat.add_sub_cancel_left, ← hfront]
  exact blit_pad_end (by rw [htrailer, hfront]; decide)

/-- A long stream goes on in new pages. -/
theorem serializeSystemPage_chained
    (h : systemInlineBudget < (serializeSystemMetas tables next).length)
    (hroom : HasRoom g (registryChunks tables next).length) :
    ∃ g', serializeSystemPage tables next g =
      .ok (registryPage (chainedBody (serializeSystemMetas tables next) g.bound
        (registryRest tables next).length),
        registryChain g.bound (registryChunks tables next)) g' := by
  obtain ⟨_, g', hnumbers, rfl⟩ := (allocate_pages hroom).exists_ok
  have hlink := @linkChunks_registryChain _ g.bound (registryChunks tables next) fun _ hc =>
    (mem_registryChunks hc).2
  have hfront : ((serializeSystemMetas tables next).take systemInlineBudget).length =
      systemInlineBudget := by
    rw [List.length_take]
    omega
  obtain ⟨page, hpage, hlays⟩ := copy_newSystem
    (show ((serializeSystemMetas tables next).take systemInlineBudget).length ≤ payloadSize by
      rw [hfront]; decide)
  have hfirst : (List.range' g.bound (registryChunks tables next).length).headD 0 = g.bound := by
    have hne := registryChunks_ne_nil h
    obtain ⟨k, hk⟩ := Nat.exists_eq_succ_of_ne_zero (List.length_pos_iff.mpr hne).ne'
    rw [hk]
    rfl
  obtain ⟨page', hpage', hlays'⟩ :=
    copy_trailer g.bound (registryRest tables next).length hlays hfront
  refine ⟨g', ?_⟩
  unfold serializeSystemPage
  dsimp only
  rw [if_neg (by omega)]
  refine (run_bind_ok hnumbers).trans ?_
  have hrest : (serializeSystemMetas tables next).length - systemInlineBudget =
      (registryRest tables next).length := by rw [registryRest, List.length_drop]
  have hchunks : chunks overflowPayloadMax ((serializeSystemMetas tables next).drop
      systemInlineBudget) = registryChunks tables next := rfl
  rw [hchunks, run_bind_ok (lift_ok_iff.mpr ⟨hlink, rfl⟩),
    run_bind_ok (lift_ok_iff.mpr ⟨hpage, rfl⟩), hfirst, hrest,
    run_bind_ok (lift_ok_iff.mpr ⟨hpage', rfl⟩), hlays'.updateChecksum]
  rfl

theorem hasRoom_of_serializeSystemPage {page0 : Page} {pages : List (ℕ × Page)} {g' : WriteGuard}
    (h : systemInlineBudget < (serializeSystemMetas tables next).length)
    (hok : serializeSystemPage tables next g = .ok (page0, pages) g') :
    HasRoom g (registryChunks tables next).length := by
  unfold serializeSystemPage at hok
  dsimp only at hok
  rw [if_neg (by omega)] at hok
  obtain ⟨numbers, g₁, hnumbers, -⟩ := bind_ok_iff.mp hok
  exact wlp_iff.mp hasRoom_of_allocate _ _ hnumbers

/-- A window of page 0. -/
theorem slice_registryPage {body : List UInt8} {start stop : ℕ} (hstop : stop ≤ payloadSize) :
    slice (registryPage body).data (pageHeaderSize + start) (pageHeaderSize + stop) =
      slice (pad payloadSize body) start stop := by
  have hwindow := @Lays.slice_window (registryPage body) _ body (pageHeaderSize + start)
    (pageHeaderSize + stop) Lays.pageOf (Nat.le_add_right _ _) (by omega)
  rw [hwindow, Nat.add_sub_cancel_left, Nat.add_sub_cancel_left]

/-- A short stream is read from page 0, with zeros behind it. -/
theorem deserializeSystemPage_inline {bytes : List UInt8} (file : PageFile)
    (h : bytes.length ≤ systemInlineBudget) :
    deserializeSystemPage (registryPage bytes) file = deserializeSystemMetas.run
      (bytes ++ List.replicate (systemInlineBudget - bytes.length) 0) := by
  have hbudget : systemInlineBudget = 4066 := rfl
  have hpayload : payloadSize = 4076 := rfl
  have hheader : pageHeaderSize = 16 := rfl
  have hsize : (registryPage bytes).data.length = 4096 := (registryPage bytes).size
  have hinline : slice (registryPage bytes).data pageHeaderSize (pageHeaderSize + systemInlineBudget) =
      bytes ++ List.replicate (systemInlineBudget - bytes.length) 0 := by
    have hslice := @slice_registryPage _ bytes 0 systemInlineBudget (by omega)
    rw [Nat.add_zero] at hslice
    rw [hslice, pad_of_le (by omega), slice, List.drop_zero, Nat.sub_zero, List.take_append,
      List.take_of_length_le h, List.take_replicate]
    congr 2
    omega
  have hmarker : slice (registryPage bytes).data (pageHeaderSize + systemInlineBudget)
      (pageHeaderSize + systemInlineBudget + 2) = [0, 0] := by
    rw [Nat.add_assoc, slice_registryPage (by omega), pad_of_le (by omega),
      slice_append_right _ h, slice, List.drop_replicate, List.take_replicate]
    have hmin : min (systemInlineBudget + 2 - bytes.length - (systemInlineBudget - bytes.length))
        (payloadSize - bytes.length - (systemInlineBudget - bytes.length)) = 2 := by omega
    rw [hmin]
    rfl
  unfold deserializeSystemPage
  dsimp only
  rw [bytesOf_ok (by omega) (by omega), ok_bind, bytesOf_ok (by omega) (by omega), ok_bind, hinline,
    hmarker, if_pos (by decide)]

/-- A part of a full body of page 0, found by what stands before it. -/
theorem slice_registryPage_of_append {body : List UInt8} {start stop : ℕ}
    (pre mid post : List UInt8) (hlen : body.length = payloadSize) (happ : body = pre ++ (mid ++ post))
    (hstart : start = pageHeaderSize + pre.length) (hstop : stop = start + mid.length) :
    slice (registryPage body).data start stop = mid := by
  have hle : pre.length + mid.length ≤ payloadSize := by
    rw [← hlen, happ]
    simp only [List.length_append]
    omega
  rw [hstop, hstart, Nat.add_assoc, slice_registryPage hle, slice_pad hlen.le (hlen ▸ hle)]
  exact slice_eq_of_append happ rfl rfl

omit [Crc32Fast] in
theorem length_chainedBody {bytes : List UInt8} (n len : ℕ)
    (h : systemInlineBudget < bytes.length) :
    (bytes.take systemInlineBudget).length = systemInlineBudget ∧
      (chainedBody bytes n len).length = payloadSize := by
  have hfront : (bytes.take systemInlineBudget).length = systemInlineBudget := by
    rw [List.length_take]
    omega
  refine ⟨hfront, ?_⟩
  rw [chainedBody, List.length_append, hfront]
  simp only [List.length_append, length_leBytes]
  rfl

/-- What the trailer on page 0 says. -/
theorem trailer_registryPage {bytes : List UInt8} (n len : ℕ)
    (h : systemInlineBudget < bytes.length) :
    bytesOf (registryPage (chainedBody bytes n len)).data pageHeaderSize
        (pageHeaderSize + systemInlineBudget) = .ok (bytes.take systemInlineBudget) ∧
      bytesOf (registryPage (chainedBody bytes n len)).data (pageHeaderSize + systemInlineBudget)
        (pageHeaderSize + systemInlineBudget + 2) = .ok overflowMagic ∧
      readU32 (registryPage (chainedBody bytes n len)).data
        (pageHeaderSize + systemInlineBudget + 2) = .ok (n % 2 ^ 32) ∧
      readU32 (registryPage (chainedBody bytes n len)).data
        (pageHeaderSize + systemInlineBudget + 6) = .ok (len % 2 ^ 32) := by
  obtain ⟨hfront, hlen⟩ := length_chainedBody n len h
  have hbudget : systemInlineBudget = 4066 := rfl
  have hheader : pageHeaderSize = 16 := rfl
  have hmagic : overflowMagic.length = 2 := rfl
  have hsize : (registryPage (chainedBody bytes n len)).data.length = 4096 :=
    (registryPage (chainedBody bytes n len)).size
  refine ⟨?_, ?_, ?_, ?_⟩
  · rw [bytesOf_ok (by omega) (by omega)]
    exact congrArg Except.ok (slice_registryPage_of_append [] _ _ hlen rfl rfl (by rw [hfront]))
  · rw [bytesOf_ok (by omega) (by omega)]
    exact congrArg Except.ok (slice_registryPage_of_append (bytes.take systemInlineBudget)
      overflowMagic (leBytes 4 n ++ leBytes 4 len) hlen
      (by simp only [chainedBody, List.append_assoc]) (by rw [hfront]) rfl)
  · have hslice : slice (registryPage (chainedBody bytes n len)).data
        (pageHeaderSize + systemInlineBudget + 2) (pageHeaderSize + systemInlineBudget + 2 + 4) =
        leBytes 4 n :=
      slice_registryPage_of_append (bytes.take systemInlineBudget ++ overflowMagic) _
        (leBytes 4 len) hlen (by simp only [chainedBody, List.append_assoc])
        (by rw [List.length_append, hfront, hmagic, Nat.add_assoc]) (by rw [length_leBytes])
    rw [readU32_ok (by omega), readLe, hslice, leNat_leBytes]
    rfl
  · have hslice : slice (registryPage (chainedBody bytes n len)).data
        (pageHeaderSize + systemInlineBudget + 6) (pageHeaderSize + systemInlineBudget + 6 + 4) =
        leBytes 4 len :=
      slice_registryPage_of_append (bytes.take systemInlineBudget ++ overflowMagic ++ leBytes 4 n)
        _ [] hlen (by simp only [chainedBody, List.append_assoc, List.append_nil])
        (by simp only [List.length_append, hfront, hmagic, length_leBytes]; omega)
        (by rw [length_leBytes])
    rw [readU32_ok (by omega), readLe, hslice, leNat_leBytes]
    rfl

/-- A long stream is read from page 0 and the chain, up to the length in the trailer. -/
theorem deserializeSystemPage_chained {file : PageFile}
    (h : systemInlineBudget < (serializeSystemMetas tables next).length) (hpos : 0 < g.bound)
    (hroom : HasRoom g (registryChunks tables next).length)
    (hpages : ∀ p ∈ registryChain g.bound (registryChunks tables next),
      file.readPage p.1 = .ok p.2) :
    deserializeSystemPage (registryPage (chainedBody (serializeSystemMetas tables next) g.bound
      (registryRest tables next).length)) file =
      deserializeSystemMetas.run ((serializeSystemMetas tables next).take
        (systemInlineBudget + (registryRest tables next).length % 2 ^ 32)) := by
  have hne := registryChunks_ne_nil h
  obtain ⟨hbound, -⟩ := hroom.resolve_left (List.length_pos_iff.mpr hne).ne'
  have hcount := List.length_pos_iff.mpr hne
  have hfirst : g.bound % 2 ^ 32 = g.bound := by
    apply Nat.mod_eq_of_lt
    have hlimit : pageNoLimit = 2 ^ 32 := rfl
    omega
  obtain ⟨hinline, hmarker, hpage, hlen⟩ :=
    trailer_registryPage g.bound (registryRest tables next).length h
  have hchain : readRegistryChain file.readPage ((registryRest tables next).length % 2 ^ 32)
      ((file.pageCount + 1) * ((registryRest tables next).length % 2 ^ 32 + 1))
      ((serializeSystemMetas tables next).take systemInlineBudget)
      (if registryChunks tables next = [] then 0 else g.bound) 0 = _ :=
    readRegistryChain_registryChain (fun _ => mem_registryChunks) hpages hpos hbound
      (Nat.zero_le _) (by rw [flatten_registryChunks, Nat.zero_add]; exact Nat.mod_le _ _)
      (by
        have := Nat.le_mul_of_pos_left ((registryRest tables next).length % 2 ^ 32 + 1)
          (show 0 < file.pageCount + 1 by omega)
        omega)
  rw [if_neg hne, flatten_registryChunks, Nat.sub_zero] at hchain
  unfold deserializeSystemPage
  dsimp only
  rw [hinline, ok_bind, hmarker, ok_bind, if_neg (by simp), hpage, ok_bind, hlen, ok_bind,
    hfirst, if_neg (by omega), hchain, ok_bind, List.take_add]
  rfl

omit [Crc32Fast] in
theorem run_eq_ok_iff {α : Type} {reader : StreamReader α} {bytes : List UInt8} {a : α} :
    reader.run bytes = .ok a ↔ ∃ s, reader bytes = .ok a s := by
  unfold StreamReader.run
  cases reader bytes <;> simp

theorem registryChain_bounds {n : ℕ} {chunks : List (List UInt8)} :
    ∀ p ∈ registryChain n chunks, n ≤ p.1 ∧ p.1 < n + chunks.length := by
  induction chunks generalizing n with
  | nil => simp [registryChain]
  | cons chunk chunks ih =>
      intro p hp
      rw [List.length_cons]
      rcases List.mem_cons.mp hp with rfl | hp
      · exact ⟨le_rfl, by omega⟩
      · have := ih p hp
        omega

theorem lookup_registryChain {n : ℕ} {chunks : List (List UInt8)} :
    ∀ p ∈ registryChain n chunks, (registryChain n chunks).lookup p.1 = some p.2 := by
  induction chunks generalizing n with
  | nil => simp [registryChain]
  | cons chunk chunks ih =>
      intro p hp
      rw [registryChain, List.lookup_cons]
      rcases List.mem_cons.mp hp with rfl | hp
      · simp
      · have hbounds := registryChain_bounds p hp
        have hne : (p.1 == n) = false := by simpa using (by omega : p.1 ≠ n)
        rw [hne]
        exact ih p hp

/-- There is a page file on which the chain stands. -/
theorem exists_file (n : ℕ) (chunks : List (List UInt8)) :
    ∃ file : PageFile, ∀ p ∈ registryChain n chunks, file.readPage p.1 = .ok p.2 := by
  refine ⟨⟨[], n + chunks.length,
    (List.range (n + chunks.length)).map fun i => List.lookup i (registryChain n chunks), ⟨∅, 0⟩⟩,
    fun p hp => ?_⟩
  have hlt := (registryChain_bounds p hp).2
  unfold PageFile.readPage
  dsimp only
  rw [if_neg (by omega), List.getElem?_map, List.getElem?_range hlt, Option.map_some,
    Option.join_some, lookup_registryChain p hp]

/-- The registry is written, and wherever its pages stand it is read back the same. -/
def RegistryReadBack (tables : List TableRecord) (next : UInt32) (g : WriteGuard) : Prop :=
  ∃ page0 pages g', serializeSystemPage tables next g = .ok (page0, pages) g' ∧
    ∀ file : PageFile, (∀ p ∈ pages, file.readPage p.1 = .ok p.2) →
      ∃ tables', deserializeSystemPage page0 file = .ok (tables', next) ∧
        List.Forall₂ SameTable tables tables'

/-- The length of the chain fits in the 32 bits of the trailer, and the chain on the pages
that are left. -/
def ChainFits (tables : List TableRecord) (next : UInt32) (g : WriteGuard) : Prop :=
  (registryRest tables next).length < 2 ^ 32 ∧ HasRoom g (registryChunks tables next).length

omit [Crc32Fast] in
theorem take_stream (n : ℕ) :
    (serializeSystemMetas tables next).take (systemInlineBudget + n) ++
      (registryRest tables next).drop n = serializeSystemMetas tables next := by
  rw [registryRest, List.drop_drop, List.take_append_drop]

/-- A registry that fits is read back. -/
theorem readBack_of_fits (hpos : 0 < g.bound) (hfits : RegistryFits tables)
    (hchain : ChainFits tables next g) : RegistryReadBack tables next g := by
  by_cases h : (serializeSystemMetas tables next).length ≤ systemInlineBudget
  · refine ⟨_, _, _, serializeSystemPage_inline h, fun file _ => ?_⟩
    obtain ⟨tables', hsame, hread⟩ := deserializeSystemMetas_ok next
      (s := List.replicate (systemInlineBudget - (serializeSystemMetas tables next).length) 0) hfits
    refine ⟨tables', ?_, hsame⟩
    rw [deserializeSystemPage_inline file h]
    exact run_eq_ok_iff.mpr ⟨_, hread⟩
  · obtain ⟨g', hok⟩ := serializeSystemPage_chained (Nat.lt_of_not_le h) hchain.2
    refine ⟨_, _, g', hok, fun file hpages => ?_⟩
    obtain ⟨tables', hsame, hread⟩ := deserializeSystemMetas_ok next (s := []) hfits
    refine ⟨tables', ?_, hsame⟩
    rw [deserializeSystemPage_chained (Nat.lt_of_not_le h) hpos hchain.2 hpages,
      Nat.mod_eq_of_lt hchain.1]
    have hwhole : (serializeSystemMetas tables next).take
        (systemInlineBudget + (registryRest tables next).length) =
        serializeSystemMetas tables next ++ [] := by
      rw [List.append_nil, List.take_of_length_le]
      rw [registryRest, List.length_drop]
      omega
    rw [hwhole]
    exact run_eq_ok_iff.mpr ⟨_, hread⟩

/-- What is read back has fit. -/
theorem fits_of_readBack (hpos : 0 < g.bound) (h : RegistryReadBack tables next g) :
    RegistryFits tables ∧ ChainFits tables next g := by
  obtain ⟨page0, pages, g', hok, hback⟩ := h
  have hrecord : ∀ tables', List.Forall₂ SameTable tables tables' →
      List.Forall₂ SameRecord tables tables' := fun _ hsame => hsame.imp fun _ _ h => h.1
  by_cases hlong : systemInlineBudget < (serializeSystemMetas tables next).length
  · have hroom := hasRoom_of_serializeSystemPage hlong hok
    obtain ⟨g'', hok'⟩ := serializeSystemPage_chained hlong hroom
    rw [hok'] at hok
    obtain ⟨hpair, -⟩ := EStateM.Result.ok.inj hok
    obtain ⟨rfl, rfl⟩ := Prod.mk.inj hpair
    obtain ⟨file, hfile⟩ := exists_file g.bound (registryChunks tables next)
    obtain ⟨tables', hread, hsame⟩ := hback file hfile
    rw [deserializeSystemPage_chained hlong hpos hroom hfile, run_eq_ok_iff] at hread
    obtain ⟨s, hread⟩ := hread
    -- the stream is not cut, so its length is the one in the trailer
    have hcut := length_cut_le (take_stream _) hread (hrecord _ hsame)
    rw [List.length_drop] at hcut
    have hlen : (registryRest tables next).length < 2 ^ 32 := by omega
    rw [Nat.mod_eq_of_lt hlen] at hread
    have hwhole : (serializeSystemMetas tables next).take
        (systemInlineBudget + (registryRest tables next).length) =
        serializeSystemMetas tables next ++ [] := by
      rw [List.append_nil, List.take_of_length_le]
      rw [registryRest, List.length_drop]
      omega
    rw [hwhole] at hread
    exact ⟨(fits_of_deserializeSystemMetas (hrecord _ hsame) hread).1, hlen, hroom⟩
  · have hshort := Nat.le_of_not_lt hlong
    rw [serializeSystemPage_inline hshort] at hok
    obtain ⟨hpair, -⟩ := EStateM.Result.ok.inj hok
    obtain ⟨rfl, rfl⟩ := Prod.mk.inj hpair
    obtain ⟨tables', hread, hsame⟩ := hback (.open []) (by simp)
    rw [deserializeSystemPage_inline _ hshort, run_eq_ok_iff] at hread
    obtain ⟨s, hread⟩ := hread
    have hrest : registryRest tables next = [] := List.drop_eq_nil_of_le hshort
    refine ⟨(fits_of_deserializeSystemMetas (hrecord _ hsame) hread).1, ?_, .inl ?_⟩
    · rw [hrest]
      decide
    · rw [registryChunks, hrest, chunks, if_pos (.inl rfl)]
      rfl

/-- **The registry is read back** if and only if its counts and lengths fit in 16 bits, the
length of its chain in 32, and the chain on the pages that are left. -/
theorem registry_reads_back_iff (hpos : 0 < g.bound) :
    RegistryReadBack tables next g ↔ RegistryFits tables ∧ ChainFits tables next g :=
  ⟨fits_of_readBack hpos, fun h => readBack_of_fits hpos h.1 h.2⟩

/-! ## The registries of the calls -/

/-- What the schema calls on a table do to it. -/
inductive SchemaChange (table : String) : StateResult Session Unit → Prop
  | createIndex (indexName : String) (columns : List String) (unique : Bool)
      (h : columns ≠ []) : SchemaChange table
        (Session.createIndex .code table indexName columns unique)
  | addColumn (column : ColumnDef) (h : checkColumnName column.name = .ok ()) :
      SchemaChange table (Session.addColumn table column)
  | renameColumn (old new : String) (h : checkColumnName new = .ok ()) :
      SchemaChange table (Session.renameColumn table old new)
  | dropColumn (name : String) : SchemaChange table (Session.dropColumn table name)

/-- The registries that the schema calls lead to, in any order of the map of the tables. -/
inductive RegistryReaches : List TableRecord → UInt32 → Prop
  | empty : RegistryReaches [] 1
  | createTable {tables : List TableRecord} {next next' : UInt32} (name : String)
      (columns : List ColumnDef) {root : ℕ} (hroot : root < pageNoLimit) (encrypted : Bool)
      (h : RegistryReaches tables next) (hname : ∀ table ∈ tables, table.state.name ≠ name)
      (hnext : addOne32 next = .ok next') :
      RegistryReaches (⟨TableMeta.new name next columns root, encrypted⟩ :: tables) next'
  | change {before after : List TableRecord} {table : TableRecord} {next : UInt32}
      {x : StateResult Session Unit} {s s' : Session}
      (h : RegistryReaches (before ++ table :: after) next)
      (hx : SchemaChange table.state.name x) (hs : s.state = table.state)
      (hok : x s = .ok () s') :
      RegistryReaches (before ++ { table with state := s'.state } :: after) next
  | reorder {tables tables' : List TableRecord} {next : UInt32} (h : RegistryReaches tables next)
      (hperm : tables.Perm tables') : RegistryReaches tables' next

/-- Every registry of the calls is read back. -/
def RegistriesReadBack : Prop :=
  ∀ tables next, RegistryReaches tables next → ∀ g : WriteGuard, 0 < g.bound →
    HasRoom g (registryChunks tables next).length → RegistryReadBack tables next g

/-- A table with a short name and no columns. -/
def noteTable (name : String) : TableRecord := (TableMeta.new name 1 [] 1).record

/-- A name of `n` bytes. -/
def longName (n : ℕ) : String := String.ofList (List.replicate n 'x')

omit [Crc32Fast] in
theorem length_longName (n : ℕ) : (asBytes (longName n)).length = n := by
  have hsize : 'x'.utf8Size = 1 := rfl
  simp [longName, asBytes, List.utf8Encode, hsize]

end

/-- A column with a default value. -/
def defaultColumn : ColumnDef := ⟨"n", .integer, true, false, some (.integer 7), false⟩

/-- An index on the column. -/
def uniqueIndex : IndexMeta := { name := "byN", columns := ["n"], unique := true, rootPage := 2 }

/-- A table with the column and the index, whose name does not fit in page 0. -/
def indexedTable : TableRecord where
  state := { TableMeta.new (longName 5000) 1 [defaultColumn] 1 with indexes := [uniqueIndex] }
  encrypted := true

theorem length_name_indexedTable : (asBytes indexedTable.state.name).length = 5000 := by
  simp only [indexedTable, TableMeta.new, length_longName]

theorem length_serialize_indexedTable :
    (serializeSystemMetas [indexedTable] 2).length = 5075 := by
  have hcolumns : (indexedTable.state.columns.flatMap serializeColumn).length = 19 := by
    have h : ([defaultColumn].flatMap serializeColumn).length = 19 := by decide
    exact h
  have hindexes : (indexedTable.state.indexes.flatMap serializeIndex).length = 15 := by
    have h : ([uniqueIndex].flatMap serializeIndex).length = 15 := by decide
    exact h
  have htable : (serializeTable indexedTable).length = 5065 := by
    rw [← List.append_nil (serializeTable indexedTable), serializeTable_append]
    simp only [List.length_append, List.length_cons, List.length_nil, length_leBytes,
      length_name_indexedTable, hcolumns, hindexes]
  rw [serializeSystemMetas, List.flatMap_singleton]
  simp only [List.length_append, length_leBytes, htable]

/-- A registry with a chain behind page 0, a default value and an index is read back. -/
theorem registry_reads_back_chained :
    letI := crc32Ieee
    registryChunks [indexedTable] 2 ≠ [] ∧
      RegistryReadBack [indexedTable] 2 (.open [Page.zeroed]) := by
  let := crc32Ieee
  have hrest : (registryRest [indexedTable] 2).length = 1009 := by
    rw [registryRest, List.length_drop, length_serialize_indexedTable]
    rfl
  have hchunks : (registryChunks [indexedTable] 2).length ≤ 1010 := by
    have hcount := @length_chunks_le overflowPayloadMax (registryRest [indexedTable] 2)
    have hdiv := Nat.div_le_self (registryRest [indexedTable] 2).length overflowPayloadMax
    unfold registryChunks
    omega
  have hlimit : pageNoLimit = 2 ^ 32 := rfl
  have hbound : WriteGuard.bound (.open [Page.zeroed]) = 1 := rfl
  have hnew : (PageFile.open [Page.zeroed]).writeState.newPageCount = 0 := rfl
  refine ⟨?_, (registry_reads_back_iff (by decide)).mpr ⟨⟨by decide, ?_⟩, by omega,
    .inr ⟨by omega, by omega⟩⟩⟩
  · intro h
    rw [← flatten_registryChunks, h] at hrest
    contradiction
  · intro table htable
    obtain rfl := List.mem_singleton.mp htable
    refine ⟨?_, by decide, by decide, by decide, by decide, by decide⟩
    rw [length_name_indexedTable]
    decide

/-- A table whose name has 65536 bytes is not. -/
theorem not_registries_read_back :
    letI := crc32Ieee
    ¬ RegistriesReadBack := by
  let := crc32Ieee
  intro h
  have hreach : RegistryReaches [noteTable (longName 65536)] 2 :=
    .createTable (longName 65536) [] (by decide) false .empty (by simp) rfl
  have hlen : (serializeSystemMetas [noteTable (longName 65536)] 2).length = 65577 := by
    simp [serializeSystemMetas, serializeTable, serializeName, serializeBytes, noteTable,
      TableMeta.record, TableMeta.new, flag, length_longName]
  have hchunks : (registryChunks [noteTable (longName 65536)] 2).length ≤ 65578 := by
    have hcount := @length_chunks_le overflowPayloadMax
      (registryRest [noteTable (longName 65536)] 2)
    have hdiv := Nat.div_le_self (registryRest [noteTable (longName 65536)] 2).length
      overflowPayloadMax
    rw [registryRest, List.length_drop, hlen] at hcount hdiv
    unfold registryChunks registryRest
    omega
  have hlimit : pageNoLimit = 2 ^ 32 := rfl
  have hbound : WriteGuard.bound (.open [Page.zeroed]) = 1 := rfl
  have hnew : (PageFile.open [Page.zeroed]).writeState.newPageCount = 0 := rfl
  have hback := h _ _ hreach (.open [Page.zeroed]) (by decide) (.inr ⟨by omega, by omega⟩)
  have hname := (fits_of_readBack (by decide) hback).1.2 _ (List.mem_singleton_self _)
  have hshort : (asBytes (longName 65536)).length < 65536 := hname.name
  rw [length_longName] at hshort
  omega

end BoogyDb
