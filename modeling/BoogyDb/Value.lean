import BoogyDb.Error

/-!
# Values

A value is what a column of a row holds.  A real is kept as its 64-bit pattern
and a text as a `String`, whose bytes are its UTF-8 encoding.
-/

namespace BoogyDb

inductive ColumnType
  | text
  | integer
  | real
  | blob
  | boolean
deriving DecidableEq, Repr

inductive Value
  | null
  | text (s : String)
  | integer (i : Int64)
  | real (bits : UInt64)
  | blob (b : List UInt8)
  | boolean (b : Bool)
deriving DecidableEq

namespace Value

def valueType : Value → Option ColumnType
  | .null => none
  | .text _ => some .text
  | .integer _ => some .integer
  | .real _ => some .real
  | .blob _ => some .blob
  | .boolean _ => some .boolean

def isNull (v : Value) : Bool := v == .null

end Value

/-! ## UTF-8 -/

/-- `str::as_bytes`. -/
def asBytes (s : String) : List UInt8 := s.toByteArray.data.toList

/-- `String::from_utf8`. -/
def fromUtf8? (bs : List UInt8) : Option String :=
  if h : (ByteArray.mk bs.toArray).IsValidUTF8 then some (String.ofByteArray _ h) else none

theorem byteArray_asBytes (s : String) : ByteArray.mk (asBytes s).toArray = s.toByteArray := by
  simp [asBytes]

@[simp] theorem fromUtf8?_asBytes (s : String) : fromUtf8? (asBytes s) = some s := by
  have hvalid : (ByteArray.mk (asBytes s).toArray).IsValidUTF8 := by
    rw [byteArray_asBytes]
    exact s.isValidUTF8
  rw [fromUtf8?, dif_pos hvalid, Option.some_inj]
  apply String.toByteArray_inj.mp
  exact byteArray_asBytes s

theorem asBytes_injective {s s' : String} (h : asBytes s = asBytes s') : s = s' := by
  have hdec := congrArg fromUtf8? h
  rw [fromUtf8?_asBytes, fromUtf8?_asBytes] at hdec
  exact Option.some.inj hdec

theorem asBytes_of_fromUtf8? {bs : List UInt8} {s : String} (h : fromUtf8? bs = some s) :
    asBytes s = bs := by
  rw [fromUtf8?] at h
  split at h
  · rw [Option.some_inj] at h
    rw [← h, asBytes]
  · cases h

/-- A text of `n` bytes. -/
def longText (n : ℕ) : String := String.ofList (List.replicate n 'a')

theorem length_longText (n : ℕ) : (asBytes (longText n)).length = n := by
  have hsize : 'a'.utf8Size = 1 := rfl
  simp [longText, asBytes, List.utf8Encode, hsize]

end BoogyDb
