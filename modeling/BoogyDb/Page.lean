import BoogyDb.Error

/-!
# Pages

A page is 4096 bytes: a 16-byte header, 4076 payload bytes and a CRC-32 of
everything before it.  The accessors of `page.rs` read and write header fields
at fixed offsets.

`Lays p h body` says that a page has the header `h` and the payload `body`,
filled up with zeros, whatever its checksum is; each setter turns one such
description into another, and `updateChecksum` closes it: the page is then
`pageOf h body`.
-/

namespace BoogyDb

open Bytes

def pageSize : ℕ := 4096

def pageHeaderSize : ℕ := 16

def checksumSize : ℕ := 4

/-- The bytes between the header and the checksum. -/
def payloadSize : ℕ := 4076

def pageLeaf : ℕ := 0x01
def pageBranch : ℕ := 0x02
def pageSystem : ℕ := 0x04
def pageOverflow : ℕ := 0x10

def magicNumber : ℕ := 0xB00D

/-- `crc32fast::hash`. -/
class Crc32Fast where
  hash : List UInt8 → UInt32

/-- One bit of the CRC-32 register, with the reflected polynomial. -/
def crc32Bit (crc : UInt32) : UInt32 :=
  if crc &&& 1 = 1 then (crc >>> 1) ^^^ 0xEDB88320 else crc >>> 1

def crc32Byte (crc : UInt32) (byte : UInt8) : UInt32 :=
  crc32Bit^[8] (crc ^^^ byte.toUInt32)

/-- CRC-32 (IEEE 802.3). -/
@[reducible] def crc32Ieee : Crc32Fast where
  hash bs := ~~~ bs.foldl crc32Byte 0xFFFFFFFF

example : crc32Ieee.hash "123456789".toUTF8.toList = 0xCBF43926 := by decide +kernel

@[ext] structure Page where
  data : List UInt8
  size : data.length = pageSize
deriving DecidableEq

namespace Page

/-- `Page::default`: all zero. -/
def zeroed : Page := ⟨List.replicate pageSize 0, List.length_replicate⟩

instance : Inhabited Page := ⟨zeroed⟩

/-- Overwrite bytes at a fixed offset of the header or the checksum. -/
def write (p : Page) (off : ℕ) (src : List UInt8) : Page :=
  ⟨blit p.data off src, by rw [length_blit, p.size]⟩

theorem data_zeroed : zeroed.data = List.replicate pageSize 0 := rfl

theorem data_write (p : Page) (off : ℕ) (src : List UInt8) :
    (p.write off src).data = blit p.data off src := rfl

/-- `data[off..off + src.len()].copy_from_slice(src)`. -/
def copyFromSlice (p : Page) (off : ℕ) (src : List UInt8) : Result Page :=
  if off + src.length ≤ pageSize then .ok (p.write off src) else panic

/-- A 16-bit number as `{:#06x}` prints it. -/
def hex (v : ℕ) : String := "0x" ++ String.ofList ((Nat.toDigits 16 v).leftpad 4 '0')

/-! ## Header accessors -/

def magic (p : Page) : ℕ := readLe p.data 0 2
def setMagic (p : Page) (v : ℕ) : Page := p.write 0 (leBytes 2 v)

def flags (p : Page) : ℕ := readLe p.data 2 2
def setFlags (p : Page) (v : ℕ) : Page := p.write 2 (leBytes 2 v)

def isLeaf (p : Page) : Bool := p.flags &&& pageLeaf != 0
def isBranch (p : Page) : Bool := p.flags &&& pageBranch != 0
def isOverflow (p : Page) : Bool := p.flags &&& pageOverflow != 0

def numRows (p : Page) : ℕ := readLe p.data 4 2
def setNumRows (p : Page) (v : ℕ) : Page := p.write 4 (leBytes 2 v)

def freeSpaceOffset (p : Page) : ℕ := readLe p.data 6 2
def setFreeSpaceOffset (p : Page) (v : ℕ) : Page := p.write 6 (leBytes 2 v)

def nextLeaf (p : Page) : ℕ := readLe p.data 8 4
def setNextLeaf (p : Page) (v : ℕ) : Page := p.write 8 (leBytes 4 v)

def prevLeaf (p : Page) : ℕ := readLe p.data 12 4
def setPrevLeaf (p : Page) (v : ℕ) : Page := p.write 12 (leBytes 4 v)

def overflowPayloadLen (p : Page) : ℕ := p.numRows
def setOverflowPayloadLen (p : Page) (v : ℕ) : Page := p.setNumRows v

def overflowNext (p : Page) : ℕ := p.nextLeaf
def setOverflowNext (p : Page) (v : ℕ) : Page := p.setNextLeaf v

/-- The byte offset within the page where row `i` starts. -/
def rowOffset (p : Page) (i : ℕ) : Result ℕ := readU16 p.data (pageHeaderSize + i * 2)

def setRowOffset (p : Page) (i offset : ℕ) : Result Page :=
  p.copyFromSlice (pageHeaderSize + i * 2) (leBytes 2 offset)

/-- `data[PAGE_HEADER_SIZE..PAGE_SIZE - CHECKSUM_SIZE].fill(0)`. -/
def clearBody (p : Page) : Page := p.write pageHeaderSize (List.replicate payloadSize 0)

section

variable [Crc32Fast]

def updateChecksum (p : Page) : Page :=
  p.write (pageSize - checksumSize)
    (leBytes 4 (Crc32Fast.hash (slice p.data 0 (pageSize - checksumSize))).toNat)

def verifyChecksum (p : Page) : Bool :=
  readLe p.data (pageSize - checksumSize) 4 ==
    (Crc32Fast.hash (slice p.data 0 (pageSize - checksumSize))).toNat

def validate (p : Page) : Result Unit :=
  if p.magic ≠ magicNumber then
    fail (.corruption s!"bad page magic: expected {hex magicNumber}, got {hex p.magic}")
  else if !p.verifyChecksum then fail (.corruption "page checksum mismatch")
  else .ok ()

def newLeaf : Page :=
  ((((((zeroed.setMagic magicNumber).setFlags pageLeaf).setNumRows 0).setFreeSpaceOffset
    pageHeaderSize).setNextLeaf 0).setPrevLeaf 0).updateChecksum

def newBranch : Page :=
  (((zeroed.setMagic magicNumber).setFlags pageBranch).setNumRows 0).updateChecksum

def newSystem : Page := ((zeroed.setMagic magicNumber).setFlags pageSystem).updateChecksum

def newOverflow : Page := ((zeroed.setMagic magicNumber).setFlags pageOverflow).updateChecksum

end

end Page

/-! ## Layouts -/

/-- The fields of a page header, as they are before the 16- and 32-bit casts. -/
structure Header where
  magic : ℕ
  flags : ℕ
  numRows : ℕ
  freeSpaceOffset : ℕ
  nextLeaf : ℕ
  prevLeaf : ℕ

def Header.bytes (h : Header) : List UInt8 :=
  leBytes 2 h.magic ++ (leBytes 2 h.flags ++ (leBytes 2 h.numRows ++
    (leBytes 2 h.freeSpaceOffset ++ (leBytes 4 h.nextLeaf ++ leBytes 4 h.prevLeaf))))

@[simp] theorem Header.length_bytes (h : Header) : h.bytes.length = pageHeaderSize := by
  simp [Header.bytes, pageHeaderSize]

/-- The page with header `h` and payload `body`, with its checksum. -/
def pageOf [Crc32Fast] (h : Header) (body : List UInt8) : Page where
  data := h.bytes ++ pad payloadSize body ++
    leBytes checksumSize (Crc32Fast.hash (h.bytes ++ pad payloadSize body)).toNat
  size := by simp [pageHeaderSize, payloadSize, checksumSize, pageSize]

/-- A page with header `h` and payload `body`, whatever its checksum. -/
def Lays (p : Page) (h : Header) (body : List UInt8) : Prop :=
  ∃ tail, tail.length = checksumSize ∧ p.data = h.bytes ++ (pad payloadSize body ++ tail)

namespace Lays

variable {p : Page} {h : Header} {body : List UInt8}

theorem zeroed : Lays Page.zeroed ⟨0, 0, 0, 0, 0, 0⟩ [] := by
  have hbytes : Header.bytes ⟨0, 0, 0, 0, 0, 0⟩ = List.replicate pageHeaderSize 0 := by decide
  refine ⟨List.replicate checksumSize 0, List.length_replicate, ?_⟩
  rw [hbytes, pad_nil, List.replicate_append_replicate, List.replicate_append_replicate]
  rfl

theorem pageOf [Crc32Fast] : Lays (pageOf h body) h body :=
  ⟨_, length_leBytes _ _, List.append_assoc _ _ _⟩

/-- A header field is overwritten by another of its width. -/
theorem write_header (pre old post : List UInt8) {src : List UInt8} {off : ℕ} {h' : Header}
    (hp : Lays p h body) (hbytes : h.bytes = pre ++ (old ++ post)) (hoff : off = pre.length)
    (hsrc : src.length = old.length) (hbytes' : h'.bytes = pre ++ (src ++ post)) :
    Lays (p.write off src) h' body := by
  obtain ⟨tail, htail, hdata⟩ := hp
  refine ⟨tail, htail, ?_⟩
  show blit p.data off src = _
  rw [hdata, hbytes, hbytes', hoff]
  simp only [List.append_assoc]
  rw [blit_append_self _ _ hsrc]

theorem setMagic (hp : Lays p h body) (v : ℕ) :
    Lays (p.setMagic v) { h with magic := v } body :=
  write_header [] (leBytes 2 h.magic) _ hp rfl rfl (by simp) rfl

theorem setFlags (hp : Lays p h body) (v : ℕ) :
    Lays (p.setFlags v) { h with flags := v } body :=
  write_header (leBytes 2 h.magic) (leBytes 2 h.flags) _ hp rfl (by simp) (by simp) rfl

theorem setNumRows (hp : Lays p h body) (v : ℕ) :
    Lays (p.setNumRows v) { h with numRows := v } body :=
  write_header (leBytes 2 h.magic ++ leBytes 2 h.flags) (leBytes 2 h.numRows)
    (leBytes 2 h.freeSpaceOffset ++ (leBytes 4 h.nextLeaf ++ leBytes 4 h.prevLeaf)) hp
    (by simp [Header.bytes]) (by simp) (by simp) (by simp [Header.bytes])

theorem setFreeSpaceOffset (hp : Lays p h body) (v : ℕ) :
    Lays (p.setFreeSpaceOffset v) { h with freeSpaceOffset := v } body :=
  write_header (leBytes 2 h.magic ++ leBytes 2 h.flags ++ leBytes 2 h.numRows)
    (leBytes 2 h.freeSpaceOffset) (leBytes 4 h.nextLeaf ++ leBytes 4 h.prevLeaf) hp
    (by simp [Header.bytes]) (by simp) (by simp) (by simp [Header.bytes])

theorem setNextLeaf (hp : Lays p h body) (v : ℕ) :
    Lays (p.setNextLeaf v) { h with nextLeaf := v } body :=
  write_header (leBytes 2 h.magic ++ leBytes 2 h.flags ++ leBytes 2 h.numRows ++
      leBytes 2 h.freeSpaceOffset) (leBytes 4 h.nextLeaf) (leBytes 4 h.prevLeaf) hp
    (by simp [Header.bytes]) (by simp) (by simp) (by simp [Header.bytes])

theorem setPrevLeaf (hp : Lays p h body) (v : ℕ) :
    Lays (p.setPrevLeaf v) { h with prevLeaf := v } body :=
  write_header (leBytes 2 h.magic ++ leBytes 2 h.flags ++ leBytes 2 h.numRows ++
      leBytes 2 h.freeSpaceOffset ++ leBytes 4 h.nextLeaf) (leBytes 4 h.prevLeaf) [] hp
    (by simp [Header.bytes]) (by simp) (by simp) (by simp [Header.bytes])

/-- A window of the payload is overwritten. -/
theorem write_payload {off : ℕ} {src body' : List UInt8} (hp : Lays p h body)
    (hoff : pageHeaderSize ≤ off) (hend : off + src.length ≤ pageHeaderSize + payloadSize)
    (hblit : blit (pad payloadSize body) (off - pageHeaderSize) src = pad payloadSize body') :
    Lays (p.write off src) h body' := by
  obtain ⟨tail, htail, hdata⟩ := hp
  refine ⟨tail, htail, ?_⟩
  show blit p.data off src = _
  rw [hdata, blit_append_right _ (by simpa using hoff), h.length_bytes,
    blit_append_left _ (by rw [length_pad]; omega), hblit]

theorem clearBody (hp : Lays p h body) : Lays p.clearBody h [] := by
  refine hp.write_payload le_rfl (by rw [List.length_replicate]) ?_
  rw [Nat.sub_self, blit_self_length (by simp), pad_nil]

theorem updateChecksum [Crc32Fast] (hp : Lays p h body) :
    p.updateChecksum = BoogyDb.pageOf h body := by
  obtain ⟨tail, htail, hdata⟩ := hp
  have hcut : pageSize - checksumSize = (h.bytes ++ pad payloadSize body).length := by
    simp [pageSize, checksumSize, pageHeaderSize, payloadSize]
  have hslice : slice p.data 0 (pageSize - checksumSize) = h.bytes ++ pad payloadSize body := by
    rw [hdata, hcut, ← List.append_assoc, slice_append_left _ le_rfl, slice_zero_length]
  apply Page.ext
  show blit p.data _ _ = _
  rw [hslice, hdata, ← List.append_assoc, hcut, blit_append_right _ le_rfl, Nat.sub_self,
    blit_self_length (by rw [length_leBytes, htail]; rfl)]
  rfl

/-! ### Reading -/

/-- A header field found by what stands before it. -/
theorem readLe_header (pre post : List UInt8) {width off v : ℕ} (hp : Lays p h body)
    (hbytes : h.bytes = pre ++ (leBytes width v ++ post)) (hoff : off = pre.length) :
    readLe p.data off width = v % 256 ^ width := by
  obtain ⟨tail, htail, hdata⟩ := hp
  rw [hbytes, List.append_assoc, List.append_assoc] at hdata
  exact readLe_append hdata hoff

theorem magic (hp : Lays p h body) : p.magic = h.magic % 65536 :=
  hp.readLe_header [] _ rfl rfl

theorem flags (hp : Lays p h body) : p.flags = h.flags % 65536 :=
  hp.readLe_header (leBytes 2 h.magic) _ rfl (by simp)

theorem numRows (hp : Lays p h body) : p.numRows = h.numRows % 65536 :=
  hp.readLe_header (leBytes 2 h.magic ++ leBytes 2 h.flags)
    (leBytes 2 h.freeSpaceOffset ++ (leBytes 4 h.nextLeaf ++ leBytes 4 h.prevLeaf))
    (by simp [Header.bytes]) (by simp)

theorem freeSpaceOffset (hp : Lays p h body) : p.freeSpaceOffset = h.freeSpaceOffset % 65536 :=
  hp.readLe_header (leBytes 2 h.magic ++ leBytes 2 h.flags ++ leBytes 2 h.numRows)
    (leBytes 4 h.nextLeaf ++ leBytes 4 h.prevLeaf) (by simp [Header.bytes]) (by simp)

theorem nextLeaf (hp : Lays p h body) : p.nextLeaf = h.nextLeaf % 2 ^ 32 :=
  hp.readLe_header (leBytes 2 h.magic ++ leBytes 2 h.flags ++ leBytes 2 h.numRows ++
    leBytes 2 h.freeSpaceOffset) (leBytes 4 h.prevLeaf) (by simp [Header.bytes]) (by simp)

theorem prevLeaf (hp : Lays p h body) : p.prevLeaf = h.prevLeaf % 2 ^ 32 :=
  hp.readLe_header (leBytes 2 h.magic ++ leBytes 2 h.flags ++ leBytes 2 h.numRows ++
    leBytes 2 h.freeSpaceOffset ++ leBytes 4 h.nextLeaf) [] (by simp [Header.bytes]) (by simp)

/-- A window of the padded payload, read at its offset in the page. -/
theorem slice_window {start stop : ℕ} (hp : Lays p h body) (hstart : pageHeaderSize ≤ start)
    (hstop : stop ≤ pageHeaderSize + payloadSize) :
    slice p.data start stop =
      slice (pad payloadSize body) (start - pageHeaderSize) (stop - pageHeaderSize) := by
  obtain ⟨tail, htail, hdata⟩ := hp
  rw [hdata, slice_append_right _ (by simpa using hstart), h.length_bytes,
    slice_append_left _ (by rw [length_pad]; omega)]

/-- A window of the payload, read at its offset in the page. -/
theorem slice_payload {start stop : ℕ} (hp : Lays p h body) (hstart : pageHeaderSize ≤ start)
    (hstop : stop ≤ pageHeaderSize + body.length) (hbody : body.length ≤ payloadSize) :
    slice p.data start stop = slice body (start - pageHeaderSize) (stop - pageHeaderSize) := by
  rw [hp.slice_window hstart (by omega), slice_pad hbody (by omega)]

end Lays

section

variable [Crc32Fast]

theorem newLeaf_eq : Page.newLeaf =
    pageOf ⟨magicNumber, pageLeaf, 0, pageHeaderSize, 0, 0⟩ [] :=
  ((((((Lays.zeroed.setMagic _).setFlags _).setNumRows _).setFreeSpaceOffset _).setNextLeaf
    _).setPrevLeaf _).updateChecksum

theorem newBranch_eq : Page.newBranch = pageOf ⟨magicNumber, pageBranch, 0, 0, 0, 0⟩ [] :=
  (((Lays.zeroed.setMagic _).setFlags _).setNumRows _).updateChecksum

theorem newSystem_eq : Page.newSystem = pageOf ⟨magicNumber, pageSystem, 0, 0, 0, 0⟩ [] :=
  ((Lays.zeroed.setMagic _).setFlags _).updateChecksum

theorem newOverflow_eq : Page.newOverflow = pageOf ⟨magicNumber, pageOverflow, 0, 0, 0, 0⟩ [] :=
  ((Lays.zeroed.setMagic _).setFlags _).updateChecksum

/-- Every page the engine closes with a checksum passes its own validation. -/
theorem validate_pageOf {h : Header} {body : List UInt8} (hmagic : h.magic = magicNumber) :
    (pageOf h body).validate = .ok () := by
  have hm : (pageOf h body).magic = magicNumber := by
    rw [Lays.pageOf.magic, hmagic]
    rfl
  have hcut : pageSize - checksumSize = (h.bytes ++ pad payloadSize body).length := by
    simp [pageSize, checksumSize, pageHeaderSize, payloadSize]
  have hslice : slice (pageOf h body).data 0 (pageSize - checksumSize) =
      h.bytes ++ pad payloadSize body := by
    rw [hcut]
    show slice (h.bytes ++ pad payloadSize body ++ _) 0 _ = _
    rw [slice_append_left _ le_rfl, slice_zero_length]
  have hread : readLe (pageOf h body).data (pageSize - checksumSize) 4 =
      (Crc32Fast.hash (h.bytes ++ pad payloadSize body)).toNat :=
    @readLe_eq_of_append _ _ [] _ 4 _ (by rw [List.append_nil]; rfl) hcut (UInt32.toNat_lt _)
  rw [Page.validate, hm, if_neg (by simp), Page.verifyChecksum, hslice, hread]
  simp

end

end BoogyDb
