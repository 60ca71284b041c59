import BoogyDb.Crypto
import BoogyDb.RegistryStream

/-!
# The log of a vector collection

The log file is a sequence of records `[len:4][payload]`.  The payload is an entry as
it is encoded, or a nonce and the sealed entry when the collection is encrypted, and a
commit entry ends a transaction.  A float is its bit pattern.

The reader of a plain log reads the length and does not look at it; it decodes field
by field.  The reader of an encrypted log reads the whole payload first.
-/

namespace BoogyDb

open Bytes Wp

namespace VectorWal

inductive WalEntry
  | insertVector (nodeId layer : UInt32) (vector : List UInt32)
  | setNeighbors (nodeId layer : UInt32) (neighbors : List UInt32)
  | deleteNode (nodeId : UInt32)
  | updateHeader (entryPoint nodeCount maxLayer : UInt32)
  | commit
deriving DecidableEq

def tagInsertVector : UInt8 := 1
def tagSetNeighbors : UInt8 := 2
def tagDeleteNode : UInt8 := 3
def tagUpdateHeader : UInt8 := 4
def tagCommit : UInt8 := 255

/-! ## Entries -/

/-- `u32::to_le_bytes`, and `f32::to_le_bytes` of a bit pattern. -/
def wordBytes (word : UInt32) : List UInt8 := leBytes 4 word.toNat

/-- The length of a list, cut to 32 bits, and its words. -/
def listBytes (words : List UInt32) : List UInt8 :=
  leBytes 4 words.length ++ words.flatMap wordBytes

def WalEntry.encode : WalEntry → List UInt8
  | insertVector nodeId layer vector =>
      tagInsertVector :: (wordBytes nodeId ++ wordBytes layer ++ listBytes vector)
  | setNeighbors nodeId layer neighbors =>
      tagSetNeighbors :: (wordBytes nodeId ++ wordBytes layer ++ listBytes neighbors)
  | deleteNode nodeId => tagDeleteNode :: wordBytes nodeId
  | updateHeader entryPoint nodeCount maxLayer =>
      tagUpdateHeader :: (wordBytes entryPoint ++ wordBytes nodeCount ++ wordBytes maxLayer)
  | commit => [tagCommit]

/-- `read_exact` into a buffer of `n` bytes. -/
def readExact (n : ℕ) : StreamReader (List UInt8) := fun rest =>
  if rest.length < n then .error (.error (.io "failed to fill whole buffer")) rest
  else .ok (rest.take n) (rest.drop n)

/-- `read_exact` where the end of the file is not an error. -/
def readUntilEof (n : ℕ) : StreamReader (Option (List UInt8)) := fun rest =>
  if rest.length < n then .ok none rest else .ok (some (rest.take n)) (rest.drop n)

def readWord : StreamReader UInt32 := do
  let buf ← readExact 4
  pure (UInt32.ofNat (leNat buf))

def readList : StreamReader (List UInt32) := do
  let count ← readWord
  times readWord count.toNat

/-- The fields behind a tag. -/
def decodeFields (tag : UInt8) : StreamReader WalEntry :=
  if tag = tagInsertVector then do
    let nodeId ← readWord
    let layer ← readWord
    let vector ← readList
    pure (.insertVector nodeId layer vector)
  else if tag = tagSetNeighbors then do
    let nodeId ← readWord
    let layer ← readWord
    let neighbors ← readList
    pure (.setNeighbors nodeId layer neighbors)
  else if tag = tagDeleteNode then do
    let nodeId ← readWord
    pure (.deleteNode nodeId)
  else if tag = tagUpdateHeader then do
    let entryPoint ← readWord
    let nodeCount ← readWord
    let maxLayer ← readWord
    pure (.updateHeader entryPoint nodeCount maxLayer)
  else if tag = tagCommit then pure .commit
  else liftM (fail (.io "unknown WAL entry tag") : Result WalEntry)

/-- `WalEntry::decode`: `none` at the end of the file. -/
def decode : StreamReader (Option WalEntry) := do
  match ← readUntilEof 1 with
  | none => pure none
  | some tagBuf => do
      let entry ← decodeFields (tagBuf.headD 0)
      pure (some entry)

/-- `decode_from_slice`: what is left of the slice is not looked at. -/
def decodeFromSlice (data : List UInt8) : Result (Option WalEntry) :=
  if data = [] then .ok none
  else
    match decode data with
    | .ok entry _ => .ok entry
    | .error e _ => .error e

end VectorWal

/-! ## Encrypting a payload -/

/-- `encrypt_bytes`, under the nonce that was drawn. -/
def encryptBytes (inner : Aes256Gcm) (nonce plaintext : List UInt8) : Result (List UInt8) :=
  match inner.encrypt nonce plaintext with
  | none => fail (.decryptionFailed "encryption failed: aead::Error")
  | some ciphertext => .ok (nonce ++ ciphertext)

/-- `decrypt_bytes`. -/
def decryptBytes (inner : Aes256Gcm) (encrypted : List UInt8) : Result (List UInt8) :=
  if encrypted.length < nonceSize then fail (.decryptionFailed "encrypted data too short")
  else
    match inner.decrypt (encrypted.take nonceSize) (encrypted.drop nonceSize) with
    | none => fail (.decryptionFailed "decryption failed: aead::Error")
    | some plaintext => .ok plaintext

/-- Twelve bytes of `rand::fill`. -/
abbrev Nonce : Type := { bytes : List UInt8 // bytes.length = nonceSize }

/-- An open log: the bytes of its file, the cipher and the nonces that will be drawn. -/
structure VectorWal where
  file : List UInt8
  cipher : Option Aes256Gcm
  nonces : ℕ → Nonce

namespace VectorWal

/-- Nonces of zeros. -/
def zeroNonces : ℕ → Nonce := fun _ => ⟨List.replicate nonceSize 0, List.length_replicate⟩

/-- `VectorWal::open` where there is no file yet. -/
def create (cipher : Option Aes256Gcm) (nonces : ℕ → Nonce) : VectorWal := ⟨[], cipher, nonces⟩

def append (wal : VectorWal) (entry : WalEntry) : Result VectorWal :=
  match wal.cipher with
  | none =>
      let payload := entry.encode
      .ok { wal with file := wal.file ++ (leBytes 4 payload.length ++ payload) }
  | some inner => do
      let payload ← encryptBytes inner (wal.nonces 0) entry.encode
      pure { wal with
        file := wal.file ++ (leBytes 4 payload.length ++ payload)
        nonces := fun i => wal.nonces (i + 1) }

def appendCommitted (wal : VectorWal) (entries : List WalEntry) : Result VectorWal := do
  let wal ← entries.foldlM append wal
  wal.append .commit

/-! ## Reading -/

/-- What one turn of the loop of `read_committed` reads; `none` ends the loop. -/
def readRecord : Option Aes256Gcm → StreamReader (Option WalEntry)
  | none => do
      match ← readUntilEof 4 with
      | none => pure none
      | some _ => decode
  | some inner => do
      match ← readUntilEof 4 with
      | none => pure none
      | some lenBuf =>
          match ← readUntilEof (leNat lenBuf) with
          | none => pure none
          | some encrypted => do
              let plaintext ← decryptBytes inner encrypted
              decodeFromSlice plaintext

/-- The loop of `read_committed`; every turn but the last takes bytes away. -/
def readLoop (cipher : Option Aes256Gcm) :
    ℕ → List (List WalEntry) → List WalEntry → StreamReader (List (List WalEntry))
  | 0, transactions, _ => pure transactions
  | fuel + 1, transactions, currentTx => do
      match ← readRecord cipher with
      | none => pure transactions
      | some .commit => readLoop cipher fuel (transactions ++ [currentTx]) []
      | some entry => readLoop cipher fuel transactions (currentTx ++ [entry])

def readCommitted (wal : VectorWal) : Result (List (List WalEntry)) :=
  match readLoop wal.cipher (wal.file.length + 1) [] [] wal.file with
  | .ok transactions _ => .ok transactions
  | .error e _ => .error e

/-- The log after a crash that left the first `cut` bytes of its file. -/
def cutAt (wal : VectorWal) (cut : ℕ) : VectorWal := { wal with file := wal.file.take cut }

/-! ## Words and lists -/

section

variable {s t bs : List UInt8} {n : ℕ} {word : UInt32} {words : List UInt32}

theorem readExact_iff : readExact n s = .ok bs t ↔ bs.length = n ∧ s = bs ++ t := by
  unfold readExact
  constructor
  · intro h
    split at h
    · cases h
    · cases h
      exact ⟨by rw [List.length_take]; omega, (List.take_append_drop n s).symm⟩
  · rintro ⟨rfl, rfl⟩
    simp

theorem readUntilEof_some_iff :
    readUntilEof n s = .ok (some bs) t ↔ bs.length = n ∧ s = bs ++ t := by
  unfold readUntilEof
  constructor
  · intro h
    split at h
    · cases h
    · cases h
      exact ⟨by rw [List.length_take]; omega, (List.take_append_drop n s).symm⟩
  · rintro ⟨rfl, rfl⟩
    simp

theorem readUntilEof_none_iff : readUntilEof n s = .ok none t ↔ s.length < n ∧ t = s := by
  unfold readUntilEof
  by_cases h : s.length < n
  · simp [h, eq_comm]
  · simp [h]

@[simp] theorem length_wordBytes (word : UInt32) : (wordBytes word).length = 4 :=
  length_leBytes _ _

theorem wordBytes_ofNat (h : bs.length = 4) : wordBytes (UInt32.ofNat (leNat bs)) = bs := by
  have hlt : leNat bs < 4294967296 := (leNat_lt bs).trans_eq (by rw [h]; rfl)
  have hback : (UInt32.ofNat (leNat bs)).toNat = leNat bs := by
    rw [UInt32.toNat_ofNat']
    omega
  rw [wordBytes, hback, ← h, leBytes_leNat]

theorem ofNat_wordBytes (word : UInt32) : UInt32.ofNat (leNat (wordBytes word)) = word := by
  have hlt : word.toNat < 256 ^ 4 := word.toNat_lt
  rw [wordBytes, leNat_leBytes_of_lt hlt, UInt32.ofNat_toNat]

theorem readWord_iff : readWord s = .ok word t ↔ s = wordBytes word ++ t := by
  unfold readWord
  rw [bind_ok_iff]
  constructor
  · rintro ⟨buf, u, hread, h⟩
    obtain ⟨hlen, rfl⟩ := readExact_iff.mp hread
    cases h
    rw [wordBytes_ofNat hlen]
  · rintro rfl
    exact ⟨wordBytes word, t, readExact_iff.mpr ⟨length_wordBytes word, rfl⟩,
      by rw [ofNat_wordBytes]; rfl⟩

theorem times_readWord_iff :
    times readWord n s = .ok words t ↔ words.length = n ∧ s = words.flatMap wordBytes ++ t := by
  induction n generalizing s words with
  | zero =>
      rw [times]
      constructor
      · intro h
        cases h
        exact ⟨rfl, rfl⟩
      · rintro ⟨hlen, rfl⟩
        rw [List.eq_nil_of_length_eq_zero hlen]
        rfl
  | succ n ih =>
      rw [times, bind_ok_iff]
      constructor
      · rintro ⟨word, u, hword, h⟩
        obtain ⟨rest, v, hrest, h⟩ := bind_ok_iff.mp h
        cases h
        obtain ⟨hlen, rfl⟩ := ih.mp hrest
        refine ⟨by rw [List.length_cons, hlen], ?_⟩
        rw [readWord_iff.mp hword, List.flatMap_cons, List.append_assoc]
      · rintro ⟨hlen, rfl⟩
        cases words with
        | nil => simp at hlen
        | cons word words =>
            rw [List.length_cons, Nat.succ_inj] at hlen
            refine ⟨word, words.flatMap wordBytes ++ t, readWord_iff.mpr ?_, ?_⟩
            · rw [List.flatMap_cons, List.append_assoc]
            · rw [bind_ok_iff]
              exact ⟨words, t, ih.mpr ⟨hlen, rfl⟩, rfl⟩

/-- A list is read back exactly if its length fits in 32 bits. -/
theorem readList_iff :
    readList s = .ok words t ↔ words.length < 2 ^ 32 ∧ s = listBytes words ++ t := by
  unfold readList
  rw [bind_ok_iff]
  constructor
  · rintro ⟨count, u, hcount, h⟩
    obtain ⟨hlen, rfl⟩ := times_readWord_iff.mp h
    refine ⟨by rw [hlen]; exact count.toNat_lt, ?_⟩
    rw [readWord_iff.mp hcount, listBytes, hlen, List.append_assoc, wordBytes]
  · rintro ⟨hlen, rfl⟩
    have hcount : (UInt32.ofNat words.length).toNat = words.length := by
      rw [UInt32.toNat_ofNat']
      exact Nat.mod_eq_of_lt hlen
    refine ⟨UInt32.ofNat words.length, words.flatMap wordBytes ++ t, readWord_iff.mpr ?_,
      times_readWord_iff.mpr ⟨hcount.symm, rfl⟩⟩
    rw [listBytes, wordBytes, hcount, List.append_assoc]

end

/-! ## Entries are read back -/

/-- The elements of the list that an entry holds. -/
def WalEntry.words : WalEntry → List UInt32
  | insertVector _ _ vector => vector
  | setNeighbors _ _ neighbors => neighbors
  | _ => []

section

variable {s t data : List UInt8} {entry : WalEntry}

theorem encode_ne_nil (entry : WalEntry) : entry.encode ≠ [] := by
  cases entry with
  | insertVector nodeId layer vector => exact List.cons_ne_nil _ _
  | setNeighbors nodeId layer neighbors => exact List.cons_ne_nil _ _
  | deleteNode nodeId => exact List.cons_ne_nil _ _
  | updateHeader entryPoint nodeCount maxLayer => exact List.cons_ne_nil _ _
  | commit => exact List.cons_ne_nil _ _

theorem decodeFields_iff {tag : UInt8} :
    decodeFields tag s = .ok entry t ↔
      entry.words.length < 2 ^ 32 ∧ tag :: s = entry.encode ++ t := by
  unfold decodeFields
  constructor
  -- one case for each tag, in the order in which the source tries them
  · intro h
    split at h
    · rename_i htag
      obtain ⟨nodeId, u, hnode, h⟩ := bind_ok_iff.mp h
      obtain ⟨layer, v, hlayer, h⟩ := bind_ok_iff.mp h
      obtain ⟨vector, w, hvector, h⟩ := bind_ok_iff.mp h
      cases h
      obtain ⟨hlen, rfl⟩ := readList_iff.mp hvector
      refine ⟨hlen, ?_⟩
      rw [htag, readWord_iff.mp hnode, readWord_iff.mp hlayer]
      simp only [WalEntry.encode, List.append_assoc, List.cons_append]
    split at h
    · rename_i htag
      obtain ⟨nodeId, u, hnode, h⟩ := bind_ok_iff.mp h
      obtain ⟨layer, v, hlayer, h⟩ := bind_ok_iff.mp h
      obtain ⟨neighbors, w, hneighbors, h⟩ := bind_ok_iff.mp h
      cases h
      obtain ⟨hlen, rfl⟩ := readList_iff.mp hneighbors
      refine ⟨hlen, ?_⟩
      rw [htag, readWord_iff.mp hnode, readWord_iff.mp hlayer]
      simp only [WalEntry.encode, List.append_assoc, List.cons_append]
    split at h
    · rename_i htag
      obtain ⟨nodeId, u, hnode, h⟩ := bind_ok_iff.mp h
      cases h
      refine ⟨by simp [WalEntry.words], ?_⟩
      rw [htag, readWord_iff.mp hnode]
      rfl
    split at h
    · rename_i htag
      obtain ⟨entryPoint, u, hentry, h⟩ := bind_ok_iff.mp h
      obtain ⟨nodeCount, v, hcount, h⟩ := bind_ok_iff.mp h
      obtain ⟨maxLayer, w, hmax, h⟩ := bind_ok_iff.mp h
      cases h
      refine ⟨by simp [WalEntry.words], ?_⟩
      rw [htag, readWord_iff.mp hentry, readWord_iff.mp hcount, readWord_iff.mp hmax]
      simp only [WalEntry.encode, List.append_assoc, List.cons_append]
    split at h
    · rename_i htag
      cases h
      exact ⟨by simp [WalEntry.words], by rw [htag]; rfl⟩
    · cases h
  · rintro ⟨hlen, h⟩
    cases entry with
    | insertVector nodeId layer vector =>
        simp only [WalEntry.encode, List.cons_append, List.append_assoc, List.cons.injEq] at h
        obtain ⟨rfl, rfl⟩ := h
        change vector.length < 2 ^ 32 at hlen
        rw [if_pos rfl, run_bind_ok (readWord_iff.mpr rfl), run_bind_ok (readWord_iff.mpr rfl),
          run_bind_ok (readList_iff.mpr ⟨hlen, rfl⟩)]
        rfl
    | setNeighbors nodeId layer neighbors =>
        simp only [WalEntry.encode, List.cons_append, List.append_assoc, List.cons.injEq] at h
        obtain ⟨rfl, rfl⟩ := h
        change neighbors.length < 2 ^ 32 at hlen
        rw [if_neg (by decide), if_pos rfl, run_bind_ok (readWord_iff.mpr rfl),
          run_bind_ok (readWord_iff.mpr rfl), run_bind_ok (readList_iff.mpr ⟨hlen, rfl⟩)]
        rfl
    | deleteNode nodeId =>
        simp only [WalEntry.encode, List.cons_append, List.cons.injEq] at h
        obtain ⟨rfl, rfl⟩ := h
        rw [if_neg (by decide), if_neg (by decide), if_pos rfl,
          run_bind_ok (readWord_iff.mpr rfl)]
        rfl
    | updateHeader entryPoint nodeCount maxLayer =>
        simp only [WalEntry.encode, List.cons_append, List.append_assoc, List.cons.injEq] at h
        obtain ⟨rfl, rfl⟩ := h
        rw [if_neg (by decide), if_neg (by decide), if_neg (by decide), if_pos rfl,
          run_bind_ok (readWord_iff.mpr rfl), run_bind_ok (readWord_iff.mpr rfl),
          run_bind_ok (readWord_iff.mpr rfl)]
        rfl
    | commit =>
        simp only [WalEntry.encode, List.cons_append, List.nil_append, List.cons.injEq] at h
        obtain ⟨rfl, rfl⟩ := h
        rfl

/-- **An entry is read back exactly if its list fits in 32 bits.** -/
theorem decode_some_iff :
    decode s = .ok (some entry) t ↔ entry.words.length < 2 ^ 32 ∧ s = entry.encode ++ t := by
  unfold decode
  rw [bind_ok_iff]
  constructor
  · rintro ⟨tagBuf, u, htag, h⟩
    cases tagBuf with
    | none => cases h
    | some tagBuf =>
        obtain ⟨hlen, rfl⟩ := readUntilEof_some_iff.mp htag
        obtain ⟨tag, rfl⟩ := List.length_eq_one_iff.mp hlen
        obtain ⟨entry', v, hfields, h⟩ := bind_ok_iff.mp h
        cases h
        exact decodeFields_iff.mp hfields
  · rintro ⟨hlen, rfl⟩
    obtain ⟨tag, fields, hencode⟩ := List.exists_cons_of_ne_nil (encode_ne_nil entry)
    refine ⟨some [tag], fields ++ t, readUntilEof_some_iff.mpr ⟨rfl, by rw [hencode]; rfl⟩, ?_⟩
    show (decodeFields tag >>= fun entry => pure (some entry)) (fields ++ t) = .ok (some entry) t
    rw [run_bind_ok (decodeFields_iff.mpr ⟨hlen, by rw [hencode]; rfl⟩)]
    rfl

theorem decode_none_iff : decode s = .ok none t ↔ s = [] ∧ t = [] := by
  unfold decode
  rw [bind_ok_iff]
  constructor
  · rintro ⟨tagBuf, u, htag, h⟩
    cases tagBuf with
    | none =>
        obtain ⟨hlen, rfl⟩ := readUntilEof_none_iff.mp htag
        cases h
        have hnil := List.eq_nil_of_length_eq_zero (Nat.lt_one_iff.mp hlen)
        exact ⟨hnil, hnil⟩
    | some tagBuf =>
        obtain ⟨entry', v, hfields, h⟩ := bind_ok_iff.mp h
        cases h
  · rintro ⟨rfl, rfl⟩
    exact ⟨none, [], rfl, rfl⟩

theorem decodeFromSlice_some_iff :
    decodeFromSlice data = .ok (some entry) ↔
      entry.words.length < 2 ^ 32 ∧ ∃ junk, data = entry.encode ++ junk := by
  unfold decodeFromSlice
  constructor
  · intro h
    split at h
    · cases h
    · split at h
      · rename_i found rest hdecode
        cases h
        obtain ⟨hlen, rfl⟩ := decode_some_iff.mp hdecode
        exact ⟨hlen, rest, rfl⟩
      · cases h
  · rintro ⟨hlen, junk, rfl⟩
    rw [if_neg (by simp [encode_ne_nil]), decode_some_iff.mpr ⟨hlen, rfl⟩]

theorem decodeFromSlice_none_iff : decodeFromSlice data = .ok none ↔ data = [] := by
  unfold decodeFromSlice
  constructor
  · intro h
    by_contra hne
    rw [if_neg hne] at h
    split at h
    · rename_i found rest hdecode
      cases h
      exact hne (decode_none_iff.mp hdecode).1
    · cases h
  · rintro rfl
    rfl

end

theorem decryptBytes_ok_iff {inner : Aes256Gcm} {encrypted plaintext : List UInt8} :
    decryptBytes inner encrypted = .ok plaintext ↔ nonceSize ≤ encrypted.length ∧
      inner.decrypt (encrypted.take nonceSize) (encrypted.drop nonceSize) = some plaintext := by
  unfold decryptBytes
  by_cases h : encrypted.length < nonceSize
  · simp [h, fail]
  · rw [if_neg h]
    cases hdec : inner.decrypt (encrypted.take nonceSize) (encrypted.drop nonceSize) with
    | none => simp [fail]
    | some p =>
        simp only [Except.ok.injEq, Option.some.injEq]
        exact ⟨fun hp => ⟨Nat.not_lt.mp h, hp⟩, fun hp => hp.2⟩

end VectorWal

end BoogyDb
