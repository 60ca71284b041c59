import BoogyDb.Page

/-!
# Encrypted pages

A page of an encrypted table goes to the data file as
`[nonce:12][ciphertext and tag]`.  A nonce and a tag have to fit in, so only the
first 4068 bytes of the page are encrypted; when the table is unlocked again, a
page is decrypted, filled up with zeros and given a new checksum.

AES-256-GCM itself is outside of the repository: `Aes256Gcm` is what the engine
relies on.
-/

namespace BoogyDb

open Bytes

/-- `NONCE_SIZE`. -/
def nonceSize : ℕ := 12

/-- `TAG_SIZE`. -/
def tagSize : ℕ := 16

/-- `ENCRYPTED_PAYLOAD_SIZE`: the bytes of a page that are encrypted. -/
def encryptedPayloadSize : ℕ := pageSize - nonceSize - tagSize

/-- An `Aes256Gcm` under one key.  A plaintext of at most `2 ^ 36` bytes is
encrypted to a ciphertext followed by a tag, and decrypts under its nonce. -/
structure Aes256Gcm where
  encrypt : List UInt8 → List UInt8 → Option (List UInt8)
  decrypt : List UInt8 → List UInt8 → Option (List UInt8)
  decrypt_encrypt : ∀ nonce plaintext, plaintext.length ≤ 2 ^ 36 →
    ∃ ciphertext, encrypt nonce plaintext = some ciphertext ∧
      ciphertext.length = plaintext.length + tagSize ∧
      decrypt nonce ciphertext = some plaintext

variable (inner : Aes256Gcm)

/-- Encrypt the bytes `plaintext` into a full page, under the nonce that was drawn. -/
def encryptPage (nonce plaintext : List UInt8) : Result Page :=
  if plaintext.length ≠ encryptedPayloadSize then
    fail (.invalidKey
      s!"plaintext must be {encryptedPayloadSize} bytes, got {plaintext.length}")
  else
    match inner.encrypt nonce plaintext with
    | none => fail (.decryptionFailed "encryption failed: aead::Error")
    | some ciphertext => do
        let page ← Page.zeroed.copyFromSlice 0 nonce
        page.copyFromSlice nonceSize ciphertext

/-- Decrypt a full page back to the bytes it was made from. -/
def decryptPage (encrypted : Page) : Result (List UInt8) :=
  match inner.decrypt (slice encrypted.data 0 nonceSize) (encrypted.data.drop nonceSize) with
  | none => fail (.decryptionFailed "decryption failed: aead::Error")
  | some plaintext =>
      if plaintext.length = encryptedPayloadSize then .ok plaintext else panic

/-- What `preload_encrypted_table` puts into the cache for a page of the file. -/
def restorePage [Crc32Fast] (raw : Page) : Result Page := do
  let decrypted ← decryptPage inner raw
  let page ← Page.zeroed.copyFromSlice 0 decrypted
  pure page.updateChecksum

/-- What `sync_all` writes for a page of an encrypted table. -/
def sealPage (nonce : List UInt8) (page : Page) : Result Page :=
  encryptPage inner nonce (page.data.take encryptedPayloadSize)

/-! ## A page that went through the file -/

variable {inner} {nonce : List UInt8}

/-- **The bytes that were encrypted come back.** -/
theorem decryptPage_sealPage (hnonce : nonce.length = nonceSize) (page : Page) :
    ∃ raw, sealPage inner nonce page = .ok raw ∧
      decryptPage inner raw = .ok (page.data.take encryptedPayloadSize) := by
  have hlen : (page.data.take encryptedPayloadSize).length = encryptedPayloadSize := by
    rw [List.length_take, page.size]
    decide
  obtain ⟨ciphertext, hencrypt, hcipher, hdecrypt⟩ := inner.decrypt_encrypt nonce
    (page.data.take encryptedPayloadSize) (by rw [hlen]; decide)
  rw [hlen] at hcipher
  have hzeros : (Page.zeroed.write 0 nonce).data = nonce ++ List.replicate (pageSize - nonceSize) 0 := by
    rw [Page.data_write, Page.data_zeroed, blit_replicate _ (by rw [hnonce]; decide), hnonce]
  have hraw : ((Page.zeroed.write 0 nonce).write nonceSize ciphertext).data =
      nonce ++ ciphertext := by
    rw [Page.data_write, hzeros, ← hnonce, blit_append_right _ le_rfl, Nat.sub_self,
      blit_self_length]
    rw [hcipher, List.length_replicate, hnonce]
    rfl
  refine ⟨(Page.zeroed.write 0 nonce).write nonceSize ciphertext, ?_, ?_⟩
  · have hfirst : Page.zeroed.copyFromSlice 0 nonce = .ok (Page.zeroed.write 0 nonce) :=
      if_pos (by rw [hnonce]; decide)
    have hsecond : (Page.zeroed.write 0 nonce).copyFromSlice nonceSize ciphertext =
        .ok ((Page.zeroed.write 0 nonce).write nonceSize ciphertext) :=
      if_pos (by rw [hcipher]; decide)
    rw [sealPage, encryptPage, if_neg (by rw [hlen]; simp), hencrypt]
    dsimp only
    rw [hfirst, ok_bind, hsecond]
  · rw [decryptPage, hraw, ← hnonce, slice_append_left _ le_rfl, slice_zero_length,
      List.drop_left, hdecrypt]
    dsimp only
    rw [if_pos hlen]

variable [Crc32Fast] {h : Header} {body : List UInt8}

/-- The payload bytes of a page that are encrypted. -/
def sealedSize : ℕ := encryptedPayloadSize - pageHeaderSize

/-- **A page comes back with the first 4052 bytes of its payload.** -/
theorem restorePage_sealPage (hnonce : nonce.length = nonceSize) (h : Header) (body : List UInt8) :
    ∃ raw, sealPage inner nonce (pageOf h body) = .ok raw ∧
      restorePage inner raw = .ok (pageOf h (body.take sealedSize)) := by
  obtain ⟨raw, hseal, hdecrypt⟩ := @decryptPage_sealPage inner nonce hnonce (pageOf h body)
  refine ⟨raw, hseal, ?_⟩
  have hcut : (pageOf h body).data.take encryptedPayloadSize =
      h.bytes ++ (pad payloadSize body).take sealedSize := by
    show (h.bytes ++ pad payloadSize body ++ _).take encryptedPayloadSize = _
    rw [List.append_assoc, List.take_append, h.length_bytes,
      List.take_of_length_le (by rw [h.length_bytes]; decide),
      List.take_append_of_le_length (by rw [length_pad]; decide)]
    rfl
  have hlen : (h.bytes ++ (pad payloadSize body).take sealedSize).length =
      encryptedPayloadSize := by
    rw [List.length_append, h.length_bytes, List.length_take, length_pad]
    decide
  have hlays : Lays (Page.zeroed.write 0 (h.bytes ++ (pad payloadSize body).take sealedSize)) h
      (body.take sealedSize) := by
    refine ⟨List.replicate checksumSize 0, List.length_replicate, ?_⟩
    rw [Page.data_write, Page.data_zeroed, blit_replicate _ (by rw [hlen]; decide), hlen,
      pad_take body (by decide),
      List.append_assoc, List.append_assoc, List.replicate_append_replicate]
    rfl
  rw [restorePage, hdecrypt, ok_bind, hcut, Page.copyFromSlice, if_pos (by rw [hlen]; decide),
    ok_bind, hlays.updateChecksum, pure_eq_ok]

end BoogyDb
