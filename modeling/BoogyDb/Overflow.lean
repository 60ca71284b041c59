import BoogyDb.File

/-!
# Overflow chains

A row too long for a leaf is kept as an inline cell and a chain of overflow
pages.  The cell is the first bytes of the row followed by a trailer
`[0xFF 0xFE][first_page:4][remaining:4]`; whether a cell has a trailer is decided
by the two marker bytes ten bytes before its end (`hasOverflow`).
-/

namespace BoogyDb

open Bytes WriteGuard

/-- `OVERFLOW_PAYLOAD_MAX`: the payload bytes of an overflow page. -/
def overflowPayloadMax : ℕ := pageSize - pageHeaderSize - 4

def overflowMagic : List UInt8 := [0xFF, 0xFE]

def overflowTrailerSize : ℕ := 10

/-- `max_single_row`: the longest row or cell that a leaf can hold. -/
def maxSingleRow : ℕ := pageSize - pageHeaderSize - 2 - checksumSize

/-- `MAX_REASSEMBLE_SIZE`: 64 MiB. -/
def maxReassembleSize : ℕ := 64 * 1024 * 1024

/-- Does the row end in an overflow trailer? -/
def hasOverflow (rowBytes : List UInt8) : Bool :=
  if rowBytes.length < overflowTrailerSize then false
  else
    rowBytes.getD (rowBytes.length - overflowTrailerSize) 0 == 0xFF &&
      rowBytes.getD (rowBytes.length - overflowTrailerSize + 1) 0 == 0xFE

/-- The inline length, the first overflow page and the bytes kept in the chain. -/
def decodeOverflowTrailer (rowBytes : List UInt8) : Result (ℕ × ℕ × ℕ) :=
  if rowBytes.length < overflowTrailerSize then panic
  else do
    let firstPage ← readU32 rowBytes (rowBytes.length - overflowTrailerSize + 2)
    let remainingLen ← readU32 rowBytes (rowBytes.length - overflowTrailerSize + 6)
    pure (rowBytes.length - overflowTrailerSize, firstPage, remainingLen)

def appendOverflowTrailer (buf : List UInt8) (firstPage remainingLen : ℕ) : List UInt8 :=
  buf ++ overflowMagic ++ leBytes 4 firstPage ++ leBytes 4 remainingLen

/-- The payload slice of an overflow page. -/
def readOverflowPayload (page : Page) : Result (List UInt8) :=
  bytesOf page.data pageHeaderSize (pageHeaderSize + page.overflowPayloadLen)

/-- The loop over a chain: at most `fuel` pages, `left` bytes still to read. -/
def readChain (read : ℕ → Result Page) : ℕ → List UInt8 → ℕ → ℕ → Result (List UInt8)
  | 0, full, current, left =>
      if current = 0 ∨ left = 0 then pure full
      else fail (.corruption "overflow chain cycle detected")
  | fuel + 1, full, current, left =>
      if current = 0 ∨ left = 0 then pure full
      else do
        let page ← read current
        let payload ← readOverflowPayload page
        readChain read fuel (full ++ payload.take (min payload.length left)) page.overflowNext
          (left - min payload.length left)

/-- An empty chain is at its end. -/
theorem readChain_zero (read : ℕ → Result Page) (fuel : ℕ) (full : List UInt8) (left : ℕ) :
    readChain read fuel full 0 left = .ok full := by
  cases fuel with
  | zero =>
      rw [readChain, if_pos (Or.inl rfl)]
      rfl
  | succ fuel =>
      rw [readChain, if_pos (Or.inl rfl)]
      rfl

/-- `reassemble_row_reader` and `reassemble_row_writer`: the whole row of a cell. -/
def reassembleRow (read : ℕ → Result Page) (rowBytes : List UInt8) : Result (List UInt8) :=
  if !hasOverflow rowBytes then pure rowBytes
  else do
    let (inlineLen, firstPage, remaining) ← decodeOverflowTrailer rowBytes
    if inlineLen + remaining > maxReassembleSize then
      fail (.corruption (s!"overflow row claims {inlineLen + remaining} bytes, " ++
        s!"exceeds {maxReassembleSize} byte safety limit"))
    else
      let full ← bytesOf rowBytes 0 inlineLen
      readChain read (remaining / overflowPayloadMax + 2) full firstPage remaining

section

variable [Crc32Fast]

/-- `build_overflow_page`. -/
def buildOverflowPage (data : List UInt8) (nextPage : ℕ) : Result Page :=
  if data.length > overflowPayloadMax then panic
  else do
    let page ← Page.newOverflow.copyFromSlice pageHeaderSize data
    pure ((page.setOverflowPayloadLen data.length).setOverflowNext nextPage).updateChecksum

/-- Write the chunks, last one first, each pointing to the one before it. -/
def writeChain : List (List UInt8) → ℕ → StateResult WriteGuard ℕ
  | [], nextPage => pure nextPage
  | chunk :: chunks, nextPage => do
      let pageNo ← allocatePage
      let page ← buildOverflowPage chunk nextPage
      putPage pageNo page
      writeChain chunks pageNo

/-- Split a row into an inline cell of `maxInline` bytes and overflow pages. -/
def writeOverflowRow (rowData : List UInt8) (maxInline : ℕ) :
    StateResult WriteGuard (List UInt8) := do
  let overflowData ← bytesOf rowData (maxInline - overflowTrailerSize) rowData.length
  let firstPage ← writeChain (chunks overflowPayloadMax overflowData).reverse 0
  pure (appendOverflowTrailer (rowData.take (maxInline - overflowTrailerSize)) firstPage
    overflowData.length)

end

end BoogyDb
