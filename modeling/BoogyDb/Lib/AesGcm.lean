import BoogyDb.Lib.Bytes

/-!
# AES-256-GCM

AES with a 256-bit key (FIPS 197) in Galois counter mode with a 96-bit nonce and
no associated data (NIST SP 800-38D): encryption appends a 16-byte tag to the
ciphertext, and decryption checks it.  What is encrypted decrypts again under the
same key and nonce (`decrypt_encrypt`).
-/

namespace AesGcm

open Bytes

/-! ## The block cipher -/

/-- Multiplication by `x` in GF(2⁸), whose elements are the numbers below `256`. -/
def double (a : ℕ) : ℕ := if a < 128 then 2 * a else (2 * a) ^^^ 0x11B

/-- The product in GF(2⁸), from the low bit of `b` on. -/
def mul8 : ℕ → ℕ → ℕ → ℕ
  | 0, _, _ => 0
  | bits + 1, a, b => (b % 2 * a) ^^^ mul8 bits (double a) (b / 2)

def mul (a b : ℕ) : ℕ := mul8 8 a b

/-- The inverse in GF(2⁸), as the 254th power. -/
def inverse (a : ℕ) : ℕ :=
  let a3 := mul (mul a a) a
  let a6 := mul a3 a3
  let a15 := mul (mul a6 a6) a3
  let a30 := mul a15 a15
  let a60 := mul a30 a30
  let a127 := mul (mul (mul a60 a60) a6) a
  mul a127 a127

/-- The five rotations of the affine map, each wrapped around a byte. -/
def affine (a : ℕ) : ℕ :=
  let wide := a ^^^ (2 * a) ^^^ (4 * a) ^^^ (8 * a) ^^^ (16 * a)
  (wide % 256) ^^^ (wide / 256) ^^^ 0x63

def subByte (b : UInt8) : UInt8 := UInt8.ofNat (affine (inverse b.toNat))

def xtime (b : UInt8) : UInt8 := UInt8.ofNat (double b.toNat)

def xorBytes (as bs : List UInt8) : List UInt8 := List.zipWith (· ^^^ ·) as bs

/-- The words of the key schedule, the last one first. -/
def expandKey : ℕ → ℕ → UInt8 → List (List UInt8) → List (List UInt8)
  | 0, _, _, words => words
  | rest + 1, i, rcon, words =>
      let last := words.headD []
      let old := words.getD 7 []
      if i % 8 = 0 then
        let word := xorBytes (xorBytes ((last.rotateLeft 1).map subByte) [rcon, 0, 0, 0]) old
        expandKey rest (i + 1) (xtime rcon) (word :: words)
      else if i % 8 = 4 then
        expandKey rest (i + 1) rcon (xorBytes (last.map subByte) old :: words)
      else expandKey rest (i + 1) rcon (xorBytes last old :: words)

/-- The 15 round keys. -/
def roundKeys (key : List UInt8) : List (List UInt8) :=
  chunks 16 (expandKey 52 8 1 (chunks 4 key).reverse).reverse.flatten

def shiftRows (state : List UInt8) : List UInt8 :=
  (List.range 16).map fun i => state.getD (5 * i % 16) 0

def mixColumn : List UInt8 → List UInt8
  | [a, b, c, d] =>
      [xtime a ^^^ (xtime b ^^^ b) ^^^ c ^^^ d, a ^^^ xtime b ^^^ (xtime c ^^^ c) ^^^ d,
        a ^^^ b ^^^ xtime c ^^^ (xtime d ^^^ d), (xtime a ^^^ a) ^^^ b ^^^ c ^^^ xtime d]
  | column => column

def mixColumns (state : List UInt8) : List UInt8 := ((chunks 4 state).map mixColumn).flatten

def rounds : List (List UInt8) → List UInt8 → List UInt8
  | [], state => state
  | [last], state => xorBytes (shiftRows (state.map subByte)) last
  | key :: keys, state =>
      rounds keys (xorBytes (mixColumns (shiftRows (state.map subByte))) key)

/-- One block of AES-256. -/
def encryptBlock (keys : List (List UInt8)) (block : List UInt8) : List UInt8 :=
  rounds keys.tail (xorBytes block (keys.headD []))

/-- The example of FIPS 197 for a 256-bit key. -/
example : encryptBlock (roundKeys ((List.range 32).map UInt8.ofNat))
    ((List.range 16).map fun i => UInt8.ofNat (17 * i)) =
    [0x8E, 0xA2, 0xB7, 0xCA, 0x51, 0x67, 0x45, 0xBF, 0xEA, 0xFC, 0x49, 0x90, 0x4B, 0x49, 0x60,
      0x89] := by decide +kernel

/-! ## Counter mode and the tag -/

/-- The first `len` bytes of the key stream, whose blocks are counted from `2`. -/
def keyStream (keys : List (List UInt8)) (nonce : List UInt8) (len : ℕ) : List UInt8 :=
  pad len (((List.range ((len + 15) / 16)).map fun i =>
    encryptBlock keys (nonce ++ beBytes 4 (i + 2))).flatten)

/-- The product in GF(2¹²⁸), whose first coefficient is the highest bit. -/
def mul128 (x : ℕ) : ℕ → ℕ → ℕ
  | 0, _ => 0
  | bits + 1, v =>
      (x / 2 ^ bits % 2 * v) ^^^
        mul128 x bits (if v % 2 = 1 then (v / 2) ^^^ (0xE1 * 2 ^ 120) else v / 2)

def ghash (h : ℕ) (blocks : List (List UInt8)) : ℕ :=
  blocks.foldl (fun acc block => mul128 (acc ^^^ beNat block) 128 h) 0

/-- The blocks of a ciphertext, filled up with zeros. -/
def paddedBlocks (bytes : List UInt8) : List (List UInt8) := (chunks 16 bytes).map (pad 16)

def tag (keys : List (List UInt8)) (nonce ciphertext : List UInt8) : List UInt8 :=
  let h := beNat (encryptBlock keys (List.replicate 16 0))
  let sum := ghash h (paddedBlocks ciphertext ++ [beBytes 8 0 ++ beBytes 8 (8 * ciphertext.length)])
  xorBytes (pad 16 (encryptBlock keys (nonce ++ beBytes 4 1))) (beBytes 16 sum)

def encrypt (key nonce plaintext : List UInt8) : Option (List UInt8) :=
  let keys := roundKeys key
  let ciphertext := xorBytes plaintext (keyStream keys nonce plaintext.length)
  if plaintext.length ≤ 2 ^ 36 then some (ciphertext ++ tag keys nonce ciphertext) else none

def decrypt (key nonce sealedText : List UInt8) : Option (List UInt8) :=
  let keys := roundKeys key
  let ciphertext := sealedText.take (sealedText.length - 16)
  if tag keys nonce ciphertext = sealedText.drop (sealedText.length - 16) then
    some (xorBytes ciphertext (keyStream keys nonce ciphertext.length))
  else none

/-! ## Decryption -/

theorem xorBytes_self {as bs : List UInt8} (h : as.length = bs.length) :
    xorBytes (xorBytes as bs) bs = as := by
  induction as generalizing bs with
  | nil => rfl
  | cons a as ih =>
      obtain ⟨b, bs, rfl⟩ := List.exists_cons_of_length_eq_add_one h.symm
      have hbyte : a ^^^ b ^^^ b = a := by
        rw [UInt8.xor_assoc, UInt8.xor_self, UInt8.xor_zero]
      have hrest := ih (Nat.succ_injective h)
      rw [xorBytes, xorBytes] at hrest ⊢
      rw [List.zipWith_cons_cons, List.zipWith_cons_cons, hbyte, hrest]

theorem length_xorBytes {as bs : List UInt8} (h : as.length = bs.length) :
    (xorBytes as bs).length = as.length := by
  rw [xorBytes, List.length_zipWith, ← h, Nat.min_self]

theorem length_tag (keys : List (List UInt8)) (nonce ciphertext : List UInt8) :
    (tag keys nonce ciphertext).length = 16 := by
  rw [tag, length_xorBytes (by rw [length_pad, length_beBytes]), length_pad]

/-- **What is encrypted decrypts.** -/
theorem decrypt_encrypt (key nonce : List UInt8) {plaintext : List UInt8}
    (h : plaintext.length ≤ 2 ^ 36) :
    ∃ sealedText, encrypt key nonce plaintext = some sealedText ∧
      sealedText.length = plaintext.length + 16 ∧ decrypt key nonce sealedText = some plaintext := by
  set keys := roundKeys key with hkeys
  set ciphertext := xorBytes plaintext (keyStream keys nonce plaintext.length) with hcipher
  have hstream : ∀ len, (keyStream keys nonce len).length = len := fun len => length_pad _ _
  have hlen : ciphertext.length = plaintext.length := length_xorBytes (hstream _).symm
  have htag := length_tag keys nonce ciphertext
  refine ⟨ciphertext ++ tag keys nonce ciphertext, if_pos h, ?_, ?_⟩
  · rw [List.length_append, hlen, htag]
  · have hsize : (ciphertext ++ tag keys nonce ciphertext).length - 16 = ciphertext.length := by
      rw [List.length_append, htag, Nat.add_sub_cancel]
    rw [decrypt, hsize, List.take_left, List.drop_left, ← hkeys, if_pos rfl, hlen, hcipher,
      xorBytes_self (hstream _).symm]

/-- A sealed text is the tag longer than the plaintext. -/
theorem length_of_decrypt {key nonce sealedText plaintext : List UInt8}
    (h : decrypt key nonce sealedText = some plaintext) :
    sealedText.length = plaintext.length + 16 := by
  unfold decrypt at h
  dsimp only at h
  split at h
  · rename_i htag
    have hstream : ∀ len, (keyStream (roundKeys key) nonce len).length = len :=
      fun len => length_pad _ _
    have hlen := congrArg List.length htag
    rw [length_tag, List.length_drop] at hlen
    rw [← Option.some.inj h, length_xorBytes (hstream _).symm, List.length_take]
    omega
  · cases h

end AesGcm
