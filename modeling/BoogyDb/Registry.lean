import BoogyDb.Overflow
import BoogyDb.Schema

/-!
# The table registry on page 0

The registry is a stream of bytes: the next table id, then a record for each table
with its columns and indexes.  What fits is kept on page 0, behind the page header;
the rest goes to a chain of overflow pages that a trailer on page 0 leads to.
Counts and lengths are written in 16 bits, with truncating casts.

A record says as well whether the table is encrypted.  The tables of the engine here
are not, and their records are `TableMeta.record`.
-/

namespace BoogyDb

open Bytes WriteGuard

def systemPageMagic : ℕ := 0xB00D5150

/-- `SYSTEM_INLINE_BUDGET`. -/
def systemInlineBudget : ℕ := pageSize - pageHeaderSize - 4 - overflowTrailerSize

def typeToTag : ColumnType → UInt8
  | .text => 1
  | .integer => 2
  | .real => 3
  | .blob => 4
  | .boolean => 5

def tagToType (tag : UInt8) : Result ColumnType :=
  if tag = 1 then .ok .text
  else if tag = 2 then .ok .integer
  else if tag = 3 then .ok .real
  else if tag = 4 then .ok .blob
  else if tag = 5 then .ok .boolean
  else fail (.corruption s!"unknown type tag: {tag}")

def flag (b : Bool) : List UInt8 := [if b then 1 else 0]

/-- What the registry keeps about a table. -/
structure TableRecord where
  state : TableMeta
  encrypted : Bool

/-- The record of a table that is not encrypted. -/
def TableMeta.record (state : TableMeta) : TableRecord := ⟨state, false⟩

/-! ## Writing -/

/-- A byte string behind its length. -/
def serializeBytes (bs : List UInt8) : List UInt8 := leBytes 2 bs.length ++ bs

def serializeName (name : String) : List UInt8 := serializeBytes (asBytes name)

def serializeColumn (col : ColumnDef) : List UInt8 :=
  serializeName col.name ++ [typeToTag col.colType] ++ flag col.nullable ++ flag col.unique ++
    flag col.dropped ++
    match col.default with
    | none => [0]
    | some v => 1 :: serializeBytes (encodeValue v)

def serializeIndex (idx : IndexMeta) : List UInt8 :=
  serializeName idx.name ++ leBytes 2 idx.columns.length ++ idx.columns.flatMap serializeName ++
    flag idx.unique ++ leBytes 4 idx.rootPage

def serializeTable (table : TableRecord) : List UInt8 :=
  let state := table.state
  leBytes 4 state.tableId.toNat ++ leBytes 4 state.rootPage ++ leBytes 8 state.rowCount.toNat ++
    leBytes 8 state.nextRowid.toNat ++ serializeName state.name ++
    leBytes 2 state.columns.length ++ state.columns.flatMap serializeColumn ++
    leBytes 2 state.indexes.length ++ state.indexes.flatMap serializeIndex ++
    flag table.encrypted

def serializeSystemMetas (metas : List TableRecord) (nextTableId : UInt32) : List UInt8 :=
  leBytes 4 systemPageMagic ++ leBytes 4 nextTableId.toNat ++ leBytes 2 metas.length ++
    metas.flatMap serializeTable

section

variable [Crc32Fast]

/-- The pages of an overflow chain, each pointing to the next. -/
def linkChunks : List ℕ → List (List UInt8) → Result (List (ℕ × Page))
  | pageNo :: pageNumbers, chunk :: chunks => do
      let page ← buildOverflowPage chunk (pageNumbers.headD 0)
      let rest ← linkChunks pageNumbers chunks
      pure ((pageNo, page) :: rest)
  | _, _ => pure []

/-- Page 0 and the overflow pages behind it. -/
def serializeSystemPage (metas : List TableRecord) (nextTableId : UInt32) :
    StateResult WriteGuard (Page × List (ℕ × Page)) := do
  let bytes := serializeSystemMetas metas nextTableId
  if bytes.length ≤ systemInlineBudget then
    let page0 ← Page.newSystem.copyFromSlice pageHeaderSize bytes
    pure (page0.updateChecksum, [])
  else
    let chunks := chunks overflowPayloadMax (bytes.drop systemInlineBudget)
    let pageNumbers ← chunks.mapM fun _ => allocatePage
    let overflowPages ← linkChunks pageNumbers chunks
    let page0 ← Page.newSystem.copyFromSlice pageHeaderSize (bytes.take systemInlineBudget)
    let page0 ← page0.copyFromSlice (pageHeaderSize + systemInlineBudget)
      (overflowMagic ++ leBytes 4 (pageNumbers.headD 0) ++
        leBytes 4 (bytes.length - systemInlineBudget))
    pure (page0.updateChecksum, overflowPages)

end

/-! ## Reading -/

/-- A reader of the stream keeps what is left of it. -/
abbrev StreamReader (α : Type) := StateResult (List UInt8) α

/-- `0x{:0width X}`. -/
def hexUpper (width v : ℕ) : String :=
  "0x" ++ String.ofList (((Nat.toDigits 16 v).map Char.toUpper).leftpad width '0')

/-- Is there this much left? -/
def need (n : ℕ) (msg : String) : StreamReader Unit :=
  readOnly fun rest => if rest.length < n then fail (.corruption msg) else .ok ()

def takeBytes (n : ℕ) : StreamReader (List UInt8) := fun rest =>
  if rest.length < n then .error .panic rest else .ok (rest.take n) (rest.drop n)

def takeNat (n : ℕ) : StreamReader ℕ := do
  let bs ← takeBytes n
  pure (leNat bs)

def takeByte : StreamReader UInt8 := do
  let bs ← takeBytes 1
  pure (bs.headD 0)

/-- `String::from_utf8`, with the reader's own error text. -/
def utf8 (msg : String) (bs : List UInt8) : Result String :=
  match fromUtf8? bs with
  | some s => .ok s
  | none => fail (.corruption msg)

/-- A counted loop. -/
def times {α : Type} (read : StreamReader α) : ℕ → StreamReader (List α)
  | 0 => pure []
  | n + 1 => do
      let a ← read
      let rest ← times read n
      pure (a :: rest)

def deserializeDefault : StreamReader (Option Value) := do
  need 1 "system page truncated at column has_default flag"
  let hasDefault ← takeByte
  if hasDefault = 0 then pure none
  else
    need 2 "system page truncated at column default length"
    let vlen ← takeNat 2
    need vlen "system page truncated at column default value"
    let bs ← takeBytes vlen
    let (v, _) ← decodeValue bs
    pure (some v)

def deserializeColumn : StreamReader ColumnDef := do
  need 2 "system page truncated at column name length"
  let nameLen ← takeNat 2
  need (nameLen + 3) "system page truncated at column data"
  let nameBytes ← takeBytes nameLen
  let name ← utf8 "invalid utf8 in column name" nameBytes
  let typeTag ← takeByte
  let nullable ← takeByte
  let unique ← takeByte
  need 1 "system page truncated at column dropped flag"
  let dropped ← takeByte
  let default ← deserializeDefault
  let colType ← tagToType typeTag
  pure { name, colType, nullable := nullable != 0, unique := unique != 0, default
         dropped := dropped != 0 }

def deserializeIndex : StreamReader IndexMeta := do
  need 2 "system page truncated at index name length"
  let nameLen ← takeNat 2
  need nameLen "system page truncated at index name"
  let nameBytes ← takeBytes nameLen
  let name ← utf8 "invalid utf8 in index name" nameBytes
  need 2 "system page truncated at index column count"
  let numCols ← takeNat 2
  let columns ← times (do
    need 2 "system page truncated at index column length"
    let len ← takeNat 2
    need len "system page truncated at index column"
    let bs ← takeBytes len
    utf8 "invalid utf8 in index column" bs) numCols
  need 1 "system page truncated at index unique flag"
  let unique ← takeByte
  need 4 "system page truncated at index root page"
  let rootPage ← takeNat 4
  pure { name, columns, unique := unique != 0, rootPage }

/-- The encrypted flag may be missing behind the last table. -/
def takeEncrypted : StreamReader Bool := fun rest => .ok (rest.headD 0 != 0) (rest.drop 1)

def deserializeTable : StreamReader TableRecord := do
  need 24 "system page truncated in table header"
  let tableId ← takeNat 4
  let rootPage ← takeNat 4
  let rowCount ← takeNat 8
  let nextRowid ← takeNat 8
  need 2 "system page truncated at table name length"
  let nameLen ← takeNat 2
  need nameLen "system page truncated at table name"
  let nameBytes ← takeBytes nameLen
  let name ← utf8 "invalid utf8 in table name" nameBytes
  need 2 "system page truncated at column count"
  let numColumns ← takeNat 2
  let columns ← times deserializeColumn numColumns
  let state := { TableMeta.new name (UInt32.ofNat tableId) columns rootPage with
    rowCount := UInt64.ofNat rowCount
    nextRowid := UInt64.ofNat nextRowid }
  need 2 "system page truncated at index count"
  let numIndexes ← takeNat 2
  let indexes ← times deserializeIndex numIndexes
  let encrypted ← takeEncrypted
  pure ⟨{ state with indexes }, encrypted⟩

/-- The tables and the next table id. -/
def deserializeSystemMetas : StreamReader (List TableRecord × UInt32) := do
  need 4 "system page: truncated (no magic)"
  let magic ← takeNat 4
  if magic ≠ systemPageMagic then
    throw (.error (.corruption
      s!"system page magic mismatch: {hexUpper 8 magic} != {hexUpper 8 systemPageMagic}"))
  else
    need 4 "system page: truncated at next_table_id"
    let nextTableId ← takeNat 4
    need 2 "system page: truncated at num_tables"
    let numTables ← takeNat 2
    let tables ← times deserializeTable numTables
    pure (tables, UInt32.ofNat nextTableId)

/-- What a reader makes of a whole stream. -/
def StreamReader.run {α : Type} (reader : StreamReader α) (bytes : List UInt8) : Result α :=
  match reader bytes with
  | .ok a _ => .ok a
  | .error e _ => .error e

/-- Follow the chain behind page 0, at most `fuel` pages of it. -/
def readRegistryChain (read : ℕ → Result Page) (remainingLen : ℕ) :
    ℕ → List UInt8 → ℕ → ℕ → Result (List UInt8)
  | fuel, bytes, current, accumulated =>
    if current ≠ 0 ∧ accumulated < remainingLen then
      match fuel with
      | 0 => overflowed
      | fuel + 1 => do
          let page ← read current
          if !page.isOverflow then
            fail (.corruption (s!"system page chain hit non-overflow page {current} " ++
              s!"(flags={hexUpper 4 page.flags})"))
          else
            let payload ← readOverflowPayload page
            let take := min (remainingLen - accumulated) payload.length
            readRegistryChain read remainingLen fuel (bytes ++ payload.take take)
              page.overflowNext (accumulated + take)
    else if accumulated < remainingLen then
      fail (.corruption (s!"system page overflow chain truncated: accumulated {accumulated} " ++
        s!"of {remainingLen} bytes"))
    else pure bytes

/-- Read the registry behind page 0.  A chain whose pages lead in a circle without a byte
on it is followed for ever; here it is given up after more turns than there are pages
together with lengths read so far (`readRegistryChain_bound`). -/
def deserializeSystemPage [Crc32Fast] (page0 : Page) (file : PageFile) :
    Result (List TableRecord × UInt32) := do
  let trailerStart := pageHeaderSize + systemInlineBudget
  let inline ← bytesOf page0.data pageHeaderSize trailerStart
  let marker ← bytesOf page0.data trailerStart (trailerStart + 2)
  if marker ≠ overflowMagic then deserializeSystemMetas.run inline
  else
    let firstPage ← readU32 page0.data (trailerStart + 2)
    let remainingLen ← readU32 page0.data (trailerStart + 6)
    if firstPage = 0 ∧ 0 < remainingLen then
      fail (.corruption ("system page trailer present but first_page is 0 " ++
        s!"(remaining_len={remainingLen})"))
    else
      let bytes ← readRegistryChain file.readPage remainingLen
        ((file.pageCount + 1) * (remainingLen + 1)) inline firstPage 0
      deserializeSystemMetas.run bytes

end BoogyDb
