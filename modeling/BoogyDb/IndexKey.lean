import BoogyDb.Lib.Float64
import BoogyDb.Schema

/-!
# Index keys

The key of a row in an index is the encoding of its value in each column of the
index, one after the other, and the row id.  Numbers are encoded in eight bytes
whose order is theirs, a text ends in a zero byte; a value that is `Null` or not of
the type of the column has no encoding, and then the row has no key.

A prefix scan finds the keys of a value by their first bytes, and `extractRowid`
reads the row id back.
-/

namespace BoogyDb

open Bytes

/-- `to_be_bytes` of a 64-bit word. -/
def toBeBytes (w : UInt64) : List UInt8 := beBytes 8 w.toNat

/-- `u64::from_be_bytes`. -/
def fromBeBytes (bs : List UInt8) : UInt64 := UInt64.ofNat (beNat bs)

def encodeI64Sortable (val : Int64) : List UInt8 := toBeBytes (val.toUInt64 ^^^ 0x8000000000000000)

def encodeF64Sortable (bits : UInt64) : List UInt8 :=
  toBeBytes (if Float64.isSignNegative bits then ~~~bits else bits ^^^ 0x8000000000000000)

def encodeTextPrefix (s : String) : List UInt8 := asBytes s ++ [0]

/-- The bytes a scan for a value looks for; `none` for `Null`. -/
def encodeValuePrefix : ColumnType → Value → Option (List UInt8)
  | _, .null => none
  | .integer, .integer i => some (encodeI64Sortable i)
  | .real, .real bits => some (encodeF64Sortable bits)
  | .text, .text s => some (encodeTextPrefix s)
  | .integer, .real bits => some (encodeI64Sortable (Float64.toInt64 bits))
  | .real, .integer i => some (encodeF64Sortable (Float64.ofInt64 i))
  | _, _ => none

/-- The encodings of the values in column order. -/
def encodeCompositeValuePrefix : List (ColumnType × Value) → Option (List UInt8)
  | [] => some []
  | (t, v) :: rest => do
      let part ← encodeValuePrefix t v
      let parts ← encodeCompositeValuePrefix rest
      pure (part ++ parts)

def encodeCompositeIndexKey (vals : List (ColumnType × Value)) (rowid : UInt64) :
    Option (List UInt8) := do
  let out ← encodeCompositeValuePrefix vals
  pure (out ++ toBeBytes rowid)

/-- The row id in a key: where a key of one number has it, or at the end of a text key.
The assertions on the length of the key are debug assertions. -/
def extractRowid (colType : ColumnType) (key : List UInt8) : Result UInt64 :=
  match colType with
  | .integer | .real => do
      let bs ← bytesOf key 8 16
      pure (fromBeBytes bs)
  | .text =>
      if key.length < 8 then overflowed
      else do
        let bs ← bytesOf key (key.length - 8) key.length
        pure (fromBeBytes bs)
  | _ => panic

end BoogyDb
