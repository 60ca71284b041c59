import BoogyDb.EncryptedPages
import BoogyDb.VectorWal

/-!
# What a vector log gives back after a crash

A crash leaves a prefix of the log file.  What is read from it are the transactions
whose commit entry lies in the prefix, in two steps.  `Scans` says which transactions a
byte string holds as whole records, and the reader finds these and nothing else
(`readLoop_iff`).  A log that was written and cut is the records of the transactions
that were kept and a rest of the next one, and of such a rest the reader must find
nothing (`Quiet`).

An encrypted record that was cut is the end of the log for the reader.  A plain one is
only when the cut falls before its second payload byte: behind the tag the end of the
file is an error.
-/

namespace BoogyDb

open Bytes Wp

/-- A ciphertext is the tag longer than what it decrypts to. -/
def Aes256Gcm.TagSized (inner : Aes256Gcm) : Prop :=
  ∀ nonce ciphertext plaintext, inner.decrypt nonce ciphertext = some plaintext →
    ciphertext.length = plaintext.length + tagSize

namespace VectorWal

variable {cipher : Option Aes256Gcm} {bytes rest record : List UInt8} {entry : WalEntry}

/-! ## Records -/

/-- The reader takes `record` for the entry. -/
def Holds (entry : WalEntry) (record : List UInt8) : Option Aes256Gcm → Prop
  | none => ∃ len : List UInt8, len.length = 4 ∧ record = len ++ entry.encode ∧
      entry.words.length < 2 ^ 32
  | some inner => ∃ len payload junk : List UInt8, len.length = 4 ∧ payload.length = leNat len ∧
      record = len ++ payload ∧ nonceSize ≤ payload.length ∧
      inner.decrypt (payload.take nonceSize) (payload.drop nonceSize) =
        some (entry.encode ++ junk) ∧ entry.words.length < 2 ^ 32

/-- The reader takes the bytes for the end of the log. -/
def EndsHere (bytes : List UInt8) : Option Aes256Gcm → Prop
  | none => bytes.length ≤ 4
  | some inner => bytes.length < 4 ∨ bytes.length < 4 + leNat (bytes.take 4) ∨
      ∃ len payload more : List UInt8, len.length = 4 ∧ payload.length = leNat len ∧
        bytes = len ++ payload ++ more ∧ nonceSize ≤ payload.length ∧
        inner.decrypt (payload.take nonceSize) (payload.drop nonceSize) = some []

theorem readRecord_some_iff : readRecord cipher bytes = .ok (some entry) rest ↔
    ∃ record, bytes = record ++ rest ∧ Holds entry record cipher := by
  cases cipher with
  | none =>
      unfold readRecord
      rw [bind_ok_iff]
      constructor
      · rintro ⟨buf, u, hbuf, h⟩
        cases buf with
        | none => cases h
        | some len =>
            obtain ⟨hlen, rfl⟩ := readUntilEof_some_iff.mp hbuf
            obtain ⟨hwords, rfl⟩ := decode_some_iff.mp h
            exact ⟨len ++ entry.encode, (List.append_assoc _ _ _).symm, len, hlen, rfl, hwords⟩
      · rintro ⟨record, rfl, len, hlen, rfl, hwords⟩
        refine ⟨some len, entry.encode ++ rest, readUntilEof_some_iff.mpr ⟨hlen, ?_⟩,
          decode_some_iff.mpr ⟨hwords, rfl⟩⟩
        rw [List.append_assoc]
  | some inner =>
      unfold readRecord
      rw [bind_ok_iff]
      constructor
      · rintro ⟨buf, u, hbuf, h⟩
        cases buf with
        | none => cases h
        | some len =>
            obtain ⟨hlen, rfl⟩ := readUntilEof_some_iff.mp hbuf
            obtain ⟨buf, v, hbuf, hrest⟩ := bind_ok_iff.mp h
            cases buf with
            | none => cases hrest
            | some payload =>
                obtain ⟨hpayload, rfl⟩ := readUntilEof_some_iff.mp hbuf
                obtain ⟨plaintext, hplain, hrest⟩ := bind_lift_iff.mp hrest
                obtain ⟨hslice, rfl⟩ := lift_ok_iff.mp hrest
                obtain ⟨hwords, junk, rfl⟩ := decodeFromSlice_some_iff.mp hslice
                obtain ⟨hnonce, hdecrypt⟩ := decryptBytes_ok_iff.mp hplain
                exact ⟨len ++ payload, (List.append_assoc _ _ _).symm, len, payload, junk, hlen,
                  hpayload, rfl, hnonce, hdecrypt, hwords⟩
      · rintro ⟨record, rfl, len, payload, junk, hlen, hpayload, rfl, hnonce, hdecrypt, hwords⟩
        refine ⟨some len, payload ++ rest, readUntilEof_some_iff.mpr ⟨hlen, ?_⟩,
          bind_ok_iff.mpr ⟨some payload, rest, readUntilEof_some_iff.mpr ⟨hpayload, rfl⟩,
            bind_lift_iff.mpr ⟨entry.encode ++ junk,
              decryptBytes_ok_iff.mpr ⟨hnonce, hdecrypt⟩, lift_ok_iff.mpr ⟨?_, rfl⟩⟩⟩⟩
        · rw [List.append_assoc]
        · exact decodeFromSlice_some_iff.mpr ⟨hwords, junk, rfl⟩

theorem readRecord_none_iff :
    (∃ rest, readRecord cipher bytes = .ok none rest) ↔ EndsHere bytes cipher := by
  cases cipher with
  | none =>
      show _ ↔ bytes.length ≤ 4
      unfold readRecord
      constructor
      · rintro ⟨rest, hread⟩
        obtain ⟨buf, u, hbuf, h⟩ := bind_ok_iff.mp hread
        cases buf with
        | none => exact (readUntilEof_none_iff.mp hbuf).1.le
        | some len =>
            obtain ⟨hlen, rfl⟩ := readUntilEof_some_iff.mp hbuf
            obtain ⟨rfl, -⟩ := decode_none_iff.mp h
            rw [List.append_nil, hlen]
      -- with exactly four bytes the length is read, and then no entry
      · intro hle
        rcases Nat.lt_or_ge bytes.length 4 with hlt | hge
        · exact ⟨bytes, bind_ok_iff.mpr ⟨none, bytes, readUntilEof_none_iff.mpr ⟨hlt, rfl⟩, rfl⟩⟩
        · refine ⟨[], bind_ok_iff.mpr ⟨some bytes, [], readUntilEof_some_iff.mpr ⟨by omega, ?_⟩,
            decode_none_iff.mpr ⟨rfl, rfl⟩⟩⟩
          rw [List.append_nil]
  | some inner =>
      unfold readRecord EndsHere
      constructor
      · rintro ⟨rest, hread⟩
        obtain ⟨buf, u, hbuf, h⟩ := bind_ok_iff.mp hread
        cases buf with
        | none => exact Or.inl (readUntilEof_none_iff.mp hbuf).1
        | some len =>
            obtain ⟨hlen, rfl⟩ := readUntilEof_some_iff.mp hbuf
            obtain ⟨buf, v, hbuf, hrest⟩ := bind_ok_iff.mp h
            right
            cases buf with
            | none =>
                left
                obtain ⟨hshort, -⟩ := readUntilEof_none_iff.mp hbuf
                rw [← hlen, List.take_left, List.length_append]
                omega
            | some payload =>
                right
                obtain ⟨hpayload, rfl⟩ := readUntilEof_some_iff.mp hbuf
                obtain ⟨plaintext, hplain, hrest⟩ := bind_lift_iff.mp hrest
                obtain ⟨hslice, rfl⟩ := lift_ok_iff.mp hrest
                obtain rfl := decodeFromSlice_none_iff.mp hslice
                obtain ⟨hnonce, hdecrypt⟩ := decryptBytes_ok_iff.mp hplain
                exact ⟨len, payload, rest, hlen, hpayload, (List.append_assoc _ _ _).symm, hnonce,
                  hdecrypt⟩
      · rintro (hlt | hshort | ⟨len, payload, more, hlen, hpayload, rfl, hnonce, hdecrypt⟩)
        · exact ⟨bytes, bind_ok_iff.mpr ⟨none, bytes, readUntilEof_none_iff.mpr ⟨hlt, rfl⟩, rfl⟩⟩
        · rcases Nat.lt_or_ge bytes.length 4 with hlt | hge
          · exact ⟨bytes,
              bind_ok_iff.mpr ⟨none, bytes, readUntilEof_none_iff.mpr ⟨hlt, rfl⟩, rfl⟩⟩
          · refine ⟨bytes.drop 4, bind_ok_iff.mpr ⟨some (bytes.take 4), bytes.drop 4,
              readUntilEof_some_iff.mpr ⟨?_, (List.take_append_drop 4 bytes).symm⟩,
              bind_ok_iff.mpr ⟨none, bytes.drop 4, readUntilEof_none_iff.mpr ⟨?_, rfl⟩, rfl⟩⟩⟩
            · rw [List.length_take]
              omega
            · rw [List.length_drop]
              omega
        · refine ⟨more, bind_ok_iff.mpr ⟨some len, payload ++ more,
            readUntilEof_some_iff.mpr ⟨hlen, List.append_assoc _ _ _⟩,
            bind_ok_iff.mpr ⟨some payload, more, readUntilEof_some_iff.mpr ⟨hpayload, rfl⟩,
              bind_lift_iff.mpr ⟨[], decryptBytes_ok_iff.mpr ⟨hnonce, hdecrypt⟩,
                lift_ok_iff.mpr ⟨rfl, rfl⟩⟩⟩⟩⟩

theorem Holds.length_pos (h : Holds entry record cipher) : 4 ≤ record.length := by
  cases cipher with
  | none =>
      obtain ⟨len, hlen, rfl, -⟩ := h
      rw [List.length_append, hlen]
      omega
  | some inner =>
      obtain ⟨len, payload, junk, hlen, -, rfl, -⟩ := h
      rw [List.length_append, hlen]
      omega

/-- A byte string starts with at most one record. -/
theorem Holds.unique {entry' : WalEntry} {record' rest' : List UInt8}
    (h : Holds entry record cipher) (h' : Holds entry' record' cipher)
    (hbytes : record ++ rest = record' ++ rest') : entry = entry' ∧ rest = rest' := by
  have hread : readRecord cipher (record ++ rest) = .ok (some entry) rest :=
    readRecord_some_iff.mpr ⟨record, rfl, h⟩
  have hread' := readRecord_some_iff.mpr ⟨record', hbytes, h'⟩
  rw [hread] at hread'
  cases hread'
  exact ⟨rfl, rfl⟩

theorem Holds.not_endsHere (h : Holds entry record cipher) :
    ¬ EndsHere (record ++ rest) cipher := by
  intro hends
  obtain ⟨rest', hnone⟩ := readRecord_none_iff.mpr hends
  rw [readRecord_some_iff.mpr ⟨record, rfl, h⟩] at hnone
  cases hnone

/-! ## What a byte string holds -/

/-- Behind the entries `currentTx` of a transaction the bytes hold the rest of it and
further committed transactions. -/
inductive Scans (cipher : Option Aes256Gcm) :
    List WalEntry → List UInt8 → List (List WalEntry) → Prop
  | ends {currentTx : List WalEntry} {bytes : List UInt8} : EndsHere bytes cipher →
      Scans cipher currentTx bytes []
  | commit {currentTx : List WalEntry} {record rest : List UInt8}
      {transactions : List (List WalEntry)} : Holds .commit record cipher →
      Scans cipher [] rest transactions →
      Scans cipher currentTx (record ++ rest) (currentTx :: transactions)
  | entry {currentTx : List WalEntry} {entry : WalEntry} {record rest : List UInt8}
      {transactions : List (List WalEntry)} : Holds entry record cipher →
      entry ≠ .commit → Scans cipher (currentTx ++ [entry]) rest transactions →
      Scans cipher currentTx (record ++ rest) transactions

/-- The bytes hold no commit, and nothing that the reader would complain of. -/
inductive Quiet (cipher : Option Aes256Gcm) : List UInt8 → Prop
  | ends {bytes : List UInt8} : EndsHere bytes cipher → Quiet cipher bytes
  | entry {entry : WalEntry} {record rest : List UInt8} : Holds entry record cipher → entry ≠ .commit →
      Quiet cipher rest → Quiet cipher (record ++ rest)

/-- **The loop finds what the bytes hold.** -/
theorem readLoop_iff {fuel : ℕ} {transactions found : List (List WalEntry)}
    {currentTx : List WalEntry} (hfuel : bytes.length < fuel) :
    (∃ rest, readLoop cipher fuel transactions currentTx bytes = .ok found rest) ↔
      ∃ more, found = transactions ++ more ∧ Scans cipher currentTx bytes more := by
  -- a record is never empty, so the fuel outlasts the bytes
  induction fuel generalizing transactions currentTx bytes with
  | zero => omega
  | succ fuel ih =>
      have hless : ∀ (entry : WalEntry) (record rest : List UInt8), bytes = record ++ rest →
          Holds entry record cipher → rest.length < fuel := by
        intro entry record rest hbytes hrecord
        have hpos := hrecord.length_pos
        rw [hbytes, List.length_append] at hfuel
        omega
      constructor
      · rintro ⟨rest, h⟩
        unfold readLoop at h
        obtain ⟨read, u, hread, h⟩ := bind_ok_iff.mp h
        cases read with
        | none =>
            cases h
            exact ⟨[], (List.append_nil _).symm, .ends (readRecord_none_iff.mp ⟨_, hread⟩)⟩
        | some entry =>
            obtain ⟨record, rfl, hrecord⟩ := readRecord_some_iff.mp hread
            by_cases hcommit : entry = .commit
            · subst hcommit
              obtain ⟨more, rfl, hmore⟩ := (ih (hless _ _ _ rfl hrecord)).mp ⟨rest, h⟩
              exact ⟨currentTx :: more, by rw [List.append_assoc]; rfl, .commit hrecord hmore⟩
            · have h' : readLoop cipher fuel transactions (currentTx ++ [entry]) u =
                  .ok found rest := by
                -- the loop splits on `commit` alone; the other entries are kept in the same way
                cases entry with
                | commit => exact absurd rfl hcommit
                | insertVector nodeId layer vector => exact h
                | setNeighbors nodeId layer neighbors => exact h
                | deleteNode nodeId => exact h
                | updateHeader entryPoint nodeCount maxLayer => exact h
              obtain ⟨more, rfl, hmore⟩ := (ih (hless _ _ _ rfl hrecord)).mp ⟨rest, h'⟩
              exact ⟨more, rfl, .entry hrecord hcommit hmore⟩
      · rintro ⟨more, rfl, hmore⟩
        unfold readLoop
        cases hmore with
        | ends hends =>
            obtain ⟨rest, hread⟩ := readRecord_none_iff.mpr hends
            refine ⟨rest, ?_⟩
            rw [run_bind_ok hread, List.append_nil]
            rfl
        | @commit _ record rest more hrecord hmore =>
            have hfound : transactions ++ currentTx :: more = transactions ++ [currentTx] ++ more := by
              rw [List.append_assoc]
              rfl
            obtain ⟨left, hleft⟩ := (ih (hless _ _ _ rfl hrecord)).mpr ⟨more, hfound, hmore⟩
            refine ⟨left, ?_⟩
            rw [run_bind_ok (readRecord_some_iff.mpr ⟨record, rfl, hrecord⟩)]
            simpa using hleft
        | @entry _ entry record rest _ hrecord hcommit hmore =>
            obtain ⟨left, hleft⟩ := (ih (hless _ _ _ rfl hrecord)).mpr
              ⟨more, Eq.refl (transactions ++ more), hmore⟩
            refine ⟨left, ?_⟩
            rw [run_bind_ok (readRecord_some_iff.mpr ⟨record, rfl, hrecord⟩)]
            cases entry with
            | commit => exact absurd rfl hcommit
            | insertVector nodeId layer vector => exact hleft
            | setNeighbors nodeId layer neighbors => exact hleft
            | deleteNode nodeId => exact hleft
            | updateHeader entryPoint nodeCount maxLayer => exact hleft

theorem readCommitted_iff {wal : VectorWal} {found : List (List WalEntry)} :
    wal.readCommitted = .ok found ↔ Scans wal.cipher [] wal.file found := by
  have hloop : (∃ rest, readLoop wal.cipher (wal.file.length + 1) [] [] wal.file = .ok found rest) ↔
      ∃ more, found = [] ++ more ∧ Scans wal.cipher [] wal.file more :=
    readLoop_iff (Nat.lt_succ_self wal.file.length)
  unfold readCommitted
  constructor
  · intro h
    split at h
    · rename_i transactions rest hread
      cases h
      obtain ⟨more, rfl, hmore⟩ := hloop.mp ⟨rest, hread⟩
      exact hmore
    · cases h
  · intro h
    obtain ⟨rest, hread⟩ := hloop.mpr ⟨found, rfl, h⟩
    rw [hread]

/-! ## What was written -/

/-- The reader can read the entry back and does not take it for the end of its
transaction: a list fits in 32 bits, and so does a sealed payload. -/
def Sound (cipher : Option Aes256Gcm) (entry : WalEntry) : Prop :=
  entry ≠ .commit ∧ entry.words.length < 2 ^ 32 ∧
    (cipher.isSome → entry.encode.length + nonceSize + tagSize < 2 ^ 32)

/-- `record` was appended for the entry. -/
def Writes (entry : WalEntry) (record : List UInt8) : Option Aes256Gcm → Prop
  | none => record = leBytes 4 entry.encode.length ++ entry.encode
  | some inner => ∃ nonce ciphertext : List UInt8, nonce.length = nonceSize ∧
      inner.encrypt nonce entry.encode = some ciphertext ∧
      record = leBytes 4 (nonce ++ ciphertext).length ++ (nonce ++ ciphertext)

/-- The length and the payload of a record of an encrypted log. -/
theorem Writes.sealed {inner : Aes256Gcm} (h : Writes entry record (some inner))
    (hsize : entry.encode.length + nonceSize + tagSize < 2 ^ 32) :
    ∃ len payload, len.length = 4 ∧ payload.length = leNat len ∧ record = len ++ payload ∧
      nonceSize ≤ payload.length ∧
      inner.decrypt (payload.take nonceSize) (payload.drop nonceSize) = some entry.encode := by
  obtain ⟨nonce, ciphertext, hnonce, hencrypt, rfl⟩ := h
  obtain ⟨ciphertext', hencrypt', hlen, hdecrypt⟩ :=
    inner.decrypt_encrypt nonce entry.encode (by omega)
  rw [hencrypt] at hencrypt'
  obtain rfl := Option.some.inj hencrypt'
  have hpayload : (nonce ++ ciphertext).length < 256 ^ 4 := by
    rw [List.length_append, hnonce, hlen]
    omega
  refine ⟨_, _, length_leBytes _ _, (leNat_leBytes_of_lt hpayload).symm, rfl, ?_, ?_⟩
  · rw [List.length_append, hnonce]
    omega
  · rw [← hnonce, List.take_left, List.drop_left, hdecrypt]

/-- A commit is small enough to be sealed. -/
theorem Writes.holds (h : Writes entry record cipher)
    (hentry : entry = .commit ∨ Sound cipher entry) : Holds entry record cipher := by
  have hwords : entry.words.length < 2 ^ 32 := by
    rcases hentry with rfl | hsound
    · decide
    · exact hsound.2.1
  cases cipher with
  | none => exact ⟨_, length_leBytes _ _, h, hwords⟩
  | some inner =>
      have hsize : entry.encode.length + nonceSize + tagSize < 2 ^ 32 := by
        rcases hentry with rfl | hsound
        · decide
        · exact hsound.2.2 rfl
      obtain ⟨len, payload, hlen, hpayload, rfl, hnonce, hdecrypt⟩ := h.sealed hsize
      exact ⟨len, payload, [], hlen, hpayload, rfl, hnonce, by rw [List.append_nil, hdecrypt],
        hwords⟩

theorem append_ok {wal wal' : VectorWal} (h : wal.append entry = .ok wal') :
    wal'.cipher = wal.cipher ∧
      ∃ record, wal'.file = wal.file ++ record ∧ Writes entry record wal.cipher := by
  unfold append at h
  cases hcipher : wal.cipher with
  | none =>
      rw [hcipher] at h
      cases h
      exact ⟨rfl, _, rfl, rfl⟩
  | some inner =>
      rw [hcipher] at h
      obtain ⟨payload, hpayload, h⟩ := bind_eq_ok.mp h
      cases h
      unfold encryptBytes at hpayload
      split at hpayload
      · cases hpayload
      · rename_i ciphertext hencrypt
        cases hpayload
        exact ⟨rfl, _, rfl, _, ciphertext, (wal.nonces 0).2, hencrypt, rfl⟩

/-- `bytes` are the records that were appended for the entries. -/
inductive Records (cipher : Option Aes256Gcm) : List WalEntry → List UInt8 → Prop
  | nil : Records cipher [] []
  | cons {entry : WalEntry} {entries : List WalEntry} {record rest : List UInt8} :
      Writes entry record cipher → Records cipher entries rest →
      Records cipher (entry :: entries) (record ++ rest)

theorem foldlM_append_ok {entries : List WalEntry} {wal wal' : VectorWal}
    (h : entries.foldlM append wal = .ok wal') : wal'.cipher = wal.cipher ∧
      ∃ bytes, wal'.file = wal.file ++ bytes ∧ Records wal.cipher entries bytes := by
  induction entries generalizing wal with
  | nil =>
      cases h
      exact ⟨rfl, [], (List.append_nil _).symm, .nil⟩
  | cons entry entries ih =>
      rw [List.foldlM_cons] at h
      obtain ⟨mid, hmid, h⟩ := bind_eq_ok.mp h
      obtain ⟨hcipher, record, hfile, hwrites⟩ := append_ok hmid
      obtain ⟨hcipher', bytes, hfile', hrecords⟩ := ih h
      rw [hcipher] at hrecords hcipher'
      exact ⟨hcipher', record ++ bytes, by rw [hfile', hfile, List.append_assoc],
        .cons hwrites hrecords⟩

/-- What a committed transaction appends. -/
theorem appendCommitted_ok {entries : List WalEntry} {wal wal' : VectorWal}
    (h : wal.appendCommitted entries = .ok wal') : wal'.cipher = wal.cipher ∧
      ∃ bytes commit, wal'.file = wal.file ++ (bytes ++ commit) ∧
        Records wal.cipher entries bytes ∧ Writes .commit commit wal.cipher := by
  unfold appendCommitted at h
  obtain ⟨mid, hmid, h⟩ := bind_eq_ok.mp h
  obtain ⟨hcipher, bytes, hfile, hrecords⟩ := foldlM_append_ok hmid
  obtain ⟨hcipher', commit, hfile', hwrites⟩ := append_ok h
  rw [hcipher] at hcipher' hwrites
  exact ⟨hcipher', bytes, commit, by rw [hfile', hfile, List.append_assoc], hrecords, hwrites⟩

/-- `bytes` are the records that were appended for the transactions. -/
inductive Commits (cipher : Option Aes256Gcm) : List (List WalEntry) → List UInt8 → Prop
  | nil : Commits cipher [] []
  | cons {tx : List WalEntry} {transactions : List (List WalEntry)}
      {bytes commit rest : List UInt8} : Records cipher tx bytes → Writes .commit commit cipher →
      Commits cipher transactions rest →
      Commits cipher (tx :: transactions) (bytes ++ commit ++ rest)

/-- The transactions are appended one after the other. -/
def appendAll (wal : VectorWal) (transactions : List (List WalEntry)) : Result VectorWal :=
  transactions.foldlM appendCommitted wal

theorem appendAll_ok {transactions : List (List WalEntry)} {wal wal' : VectorWal}
    (h : wal.appendAll transactions = .ok wal') : wal'.cipher = wal.cipher ∧
      ∃ bytes, wal'.file = wal.file ++ bytes ∧ Commits wal.cipher transactions bytes := by
  induction transactions generalizing wal with
  | nil =>
      cases h
      exact ⟨rfl, [], (List.append_nil _).symm, .nil⟩
  | cons tx transactions ih =>
      unfold appendAll at h
      rw [List.foldlM_cons] at h
      obtain ⟨mid, hmid, h⟩ := bind_eq_ok.mp h
      obtain ⟨hcipher, bytes, commit, hfile, hrecords, hcommit⟩ := appendCommitted_ok hmid
      obtain ⟨hcipher', rest, hfile', hcommits⟩ := ih h
      rw [hcipher] at hcommits hcipher'
      exact ⟨hcipher', bytes ++ commit ++ rest, by rw [hfile', hfile, List.append_assoc],
        .cons hrecords hcommit hcommits⟩

/-! ## Whole transactions are found -/

section

variable {currentTx entries : List WalEntry} {transactions : List (List WalEntry)}

theorem Holds.scans_iff (h : Holds entry record cipher) (hentry : entry ≠ .commit) :
    Scans cipher currentTx (record ++ rest) transactions ↔
      Scans cipher (currentTx ++ [entry]) rest transactions := by
  constructor
  · intro hscan
    generalize hbytes : record ++ rest = bytes at hscan
    cases hscan with
    | ends hends => exact absurd (hbytes ▸ hends) h.not_endsHere
    | commit hcommit hmore => exact absurd (h.unique hcommit hbytes).1 hentry
    | entry hholds hne hmore =>
        obtain ⟨rfl, rfl⟩ := h.unique hholds hbytes
        exact hmore
  · exact fun hscan => .entry h hentry hscan

theorem Holds.scans_commit_iff (h : Holds .commit record cipher) :
    Scans cipher currentTx (record ++ rest) transactions ↔
      ∃ more, transactions = currentTx :: more ∧ Scans cipher [] rest more := by
  constructor
  · intro hscan
    generalize hbytes : record ++ rest = bytes at hscan
    cases hscan with
    | ends hends => exact absurd (hbytes ▸ hends) h.not_endsHere
    | @commit _ record' rest' more hcommit hmore =>
        obtain ⟨-, rfl⟩ := h.unique hcommit hbytes
        exact ⟨more, rfl, hmore⟩
    | entry hholds hne hmore => exact absurd (h.unique hholds hbytes).1.symm hne
  · rintro ⟨more, rfl, hmore⟩
    exact .commit h hmore

theorem Records.scans_iff (h : Records cipher entries bytes)
    (hsound : ∀ entry ∈ entries, Sound cipher entry) :
    Scans cipher currentTx (bytes ++ rest) transactions ↔
      Scans cipher (currentTx ++ entries) rest transactions := by
  induction h generalizing currentTx with
  | nil => rw [List.nil_append, List.append_nil]
  | @cons entry entries record bytes hwrites hrecords ih =>
      rw [List.forall_mem_cons] at hsound
      rw [List.append_assoc, (hwrites.holds (Or.inr hsound.1)).scans_iff hsound.1.1,
        ih hsound.2, List.append_assoc, List.singleton_append]

/-- **Behind the transactions that were appended, the rest of the log is read.** -/
theorem Commits.scans_iff {kept : List (List WalEntry)} (h : Commits cipher kept bytes)
    (hsound : ∀ tx ∈ kept, ∀ entry ∈ tx, Sound cipher entry) :
    Scans cipher [] (bytes ++ rest) transactions ↔
      ∃ more, transactions = kept ++ more ∧ Scans cipher [] rest more := by
  induction h generalizing transactions with
  | nil => simp
  | @cons tx kept bytes commit rest' hrecords hcommit hcommits ih =>
      rw [List.forall_mem_cons] at hsound
      rw [List.append_assoc, List.append_assoc, hrecords.scans_iff hsound.1, List.nil_append,
        (hcommit.holds (Or.inl rfl)).scans_commit_iff]
      constructor
      · rintro ⟨more, rfl, hmore⟩
        obtain ⟨behind, rfl, hbehind⟩ := (ih hsound.2).mp hmore
        exact ⟨behind, rfl, hbehind⟩
      · rintro ⟨more, rfl, hmore⟩
        exact ⟨kept ++ more, rfl, (ih hsound.2).mpr ⟨more, rfl, hmore⟩⟩

theorem scans_nil_iff : Scans cipher currentTx bytes [] ↔ Quiet cipher bytes := by
  constructor
  · intro h
    generalize hnone : ([] : List (List WalEntry)) = transactions at h
    induction h with
    | ends hends => exact .ends hends
    | commit hcommit hmore => cases hnone
    | entry hholds hne hmore ih => exact .entry hholds hne (ih hnone)
  · intro h
    induction h generalizing currentTx with
    | ends hends => exact .ends hends
    | entry hholds hne hrest ih => exact .entry hholds hne ih

theorem Holds.sound (hsize : ∀ inner, cipher = some inner → inner.TagSized)
    (h : Holds entry record cipher) (hentry : entry ≠ .commit) : Sound cipher entry := by
  cases cipher with
  | none =>
      obtain ⟨len, -, -, hwords⟩ := h
      exact ⟨hentry, hwords, fun hnone => by cases hnone⟩
  | some inner =>
      obtain ⟨len, payload, junk, hlen, hpayload, -, hnonce, hdecrypt, hwords⟩ := h
      refine ⟨hentry, hwords, fun _ => ?_⟩
      have hlt : leNat len < 256 ^ 4 := hlen ▸ leNat_lt len
      have htag := hsize inner rfl _ _ _ hdecrypt
      rw [List.length_drop, List.length_append] at htag
      omega

/-- Only sound entries are found. -/
theorem Scans.sound (hsize : ∀ inner, cipher = some inner → inner.TagSized)
    (h : Scans cipher currentTx bytes transactions)
    (hcurrent : ∀ entry ∈ currentTx, Sound cipher entry) :
    ∀ tx ∈ transactions, ∀ entry ∈ tx, Sound cipher entry := by
  induction h with
  | ends hends => simp
  | commit hcommit hmore ih =>
      rw [List.forall_mem_cons]
      exact ⟨hcurrent, ih (by simp)⟩
  | entry hholds hne hmore ih =>
      apply ih
      intro entry hmem
      rcases List.mem_append.mp hmem with hmem | hmem
      · exact hcurrent entry hmem
      · rw [List.mem_singleton.mp hmem]
        exact hholds.sound hsize hne

end

/-! ## The transaction that was cut -/

/-- The first `n` bytes of the records of a plain log end behind the tag of an entry and
before its end. -/
def CutsInside : List WalEntry → ℕ → Prop
  | [], _ => False
  | entry :: entries, n =>
      (4 < n ∧ n < 4 + entry.encode.length) ∨
        (4 + entry.encode.length ≤ n ∧ CutsInside entries (n - (4 + entry.encode.length)))

instance decidableCutsInside : ∀ (entries : List WalEntry) (n : ℕ),
    Decidable (CutsInside entries n)
  | [], _ => isFalse id
  | entry :: entries, n =>
      have := decidableCutsInside entries (n - (4 + entry.encode.length))
      inferInstanceAs (Decidable (_ ∨ _))

/-- No entry is the beginning of another one. -/
theorem encode_append_injective {entry' : WalEntry} {t t' : List UInt8}
    (h : entry.words.length < 2 ^ 32) (h' : entry'.words.length < 2 ^ 32)
    (heq : entry.encode ++ t = entry'.encode ++ t') : entry = entry' ∧ t = t' := by
  have hread : decode (entry.encode ++ t) = .ok (some entry) t := decode_some_iff.mpr ⟨h, rfl⟩
  rw [decode_some_iff.mpr ⟨h', heq⟩] at hread
  cases hread
  exact ⟨rfl, rfl⟩

/-- A record that was cut: the end of an encrypted log, and of a plain one as long as no
byte behind the tag is left. -/
theorem Writes.quiet_take_iff {n : ℕ} (h : Writes entry record cipher)
    (hentry : entry = .commit ∨ Sound cipher entry) (hn : n < record.length) :
    Quiet cipher (record.take n) ↔ cipher.isSome ∨ n ≤ 4 := by
  have hholds := h.holds hentry
  have hlen : (record.take n).length = n := by
    rw [List.length_take]
    omega
  constructor
  · intro hquiet
    cases cipher with
    | some inner => exact Or.inl rfl
    | none =>
        right
        obtain ⟨len, hlen4, hrecord, hwords⟩ := hholds
        generalize hbytes : record.take n = bytes at hquiet
        cases hquiet with
        | ends hends =>
            rw [← hlen, hbytes]
            exact hends
        | @entry entry' record' rest' hholds' hne hrest =>
            obtain ⟨len', hlen', rfl, hwords'⟩ := hholds'
            have hfull : len' ++ (entry'.encode ++ (rest' ++ record.drop n)) =
                len ++ (entry.encode ++ []) := by
              rw [List.append_nil, ← hrecord, ← List.append_assoc, ← List.append_assoc, ← hbytes]
              exact List.take_append_drop n record
            obtain ⟨-, hencode⟩ := List.append_inj hfull (by rw [hlen', hlen4])
            obtain ⟨-, hnil⟩ := encode_append_injective hwords' hwords hencode
            have hdrop := (List.append_eq_nil_iff.mp hnil).2
            rw [List.drop_eq_nil_iff] at hdrop
            omega
  · intro hcut
    apply Quiet.ends
    cases cipher with
    | none =>
        show (record.take n).length ≤ 4
        simpa [hlen] using hcut
    | some inner =>
        rcases Nat.lt_or_ge n 4 with hlt | hge
        · exact Or.inl (by rw [hlen]; exact hlt)
        · right
          left
          obtain ⟨len, payload, junk, hlen4, hpayload, rfl, -⟩ := hholds
          rw [List.length_append] at hn
          rw [hlen, List.take_take, Nat.min_eq_left hge, ← hlen4, List.take_left]
          omega

theorem Writes.length_plain (h : Writes entry record none) :
    record.length = 4 + entry.encode.length := by
  rw [h, List.length_append, length_leBytes]

/-- **What is left of a transaction that was cut is passed over**, unless the log is
plain and was cut behind a tag. -/
theorem Records.quiet_take_iff {entries : List WalEntry} {commit : List UInt8} {n : ℕ}
    (h : Records cipher entries bytes) (hcommit : Writes .commit commit cipher)
    (hsound : ∀ entry ∈ entries, Sound cipher entry) (hn : n < (bytes ++ commit).length) :
    Quiet cipher ((bytes ++ commit).take n) ↔ cipher.isSome ∨ ¬ CutsInside entries n := by
  induction h generalizing n with
  | nil =>
      rw [List.nil_append] at hn ⊢
      rw [hcommit.quiet_take_iff (Or.inl rfl) hn]
      cases cipher with
      | some inner => simp
      | none =>
          have hlen := hcommit.length_plain
          have hn4 : n ≤ 4 := by
            change commit.length = 4 + 1 at hlen
            omega
          simp [hn4, CutsInside]
  | @cons entry entries record bytes hwrites hrecords ih =>
      rw [List.forall_mem_cons] at hsound
      rw [List.append_assoc] at hn ⊢
      rcases Nat.lt_or_ge n record.length with hlt | hge
      · rw [List.take_append_of_le_length hlt.le,
          hwrites.quiet_take_iff (Or.inr hsound.1) hlt]
        cases cipher with
        | some inner => simp
        | none =>
            have hlen := hwrites.length_plain
            have hpast : ¬ 4 + entry.encode.length ≤ n := by omega
            have hbefore : n < 4 + entry.encode.length := by omega
            simp [CutsInside, hpast, hbefore]
      · have htake : (record ++ (bytes ++ commit)).take n =
            record ++ (bytes ++ commit).take (n - record.length) := by
          rw [List.take_append, List.take_of_length_le hge]
        have hrest : n - record.length < (bytes ++ commit).length := by
          rw [List.length_append] at hn
          omega
        have hpeel : Quiet cipher (record ++ (bytes ++ commit).take (n - record.length)) ↔
            Quiet cipher ((bytes ++ commit).take (n - record.length)) := by
          rw [← @scans_nil_iff _ _ [],
            (hwrites.holds (Or.inr hsound.1)).scans_iff hsound.1.1, scans_nil_iff]
        rw [htake, hpeel, ih hsound.2 hrest]
        cases cipher with
        | some inner => simp
        | none =>
            have hlen := hwrites.length_plain
            have hbehind : ¬ n < 4 + entry.encode.length := by omega
            have hpast : 4 + entry.encode.length ≤ n := by omega
            simp [CutsInside, hbehind, hpast, hlen]

/-! ## A log that was cut -/

/-- Where a prefix of a log ends. -/
structure Cut where
  /-- The transactions whose commit entry lies in the prefix. -/
  kept : List (List WalEntry)
  /-- The entries of the transaction that was cut. -/
  next : List WalEntry
  /-- Where its records start. -/
  start : ℕ

/-- Where the first `cut` bytes end when the transactions are appended to the log. -/
def cutOf (cut : ℕ) : VectorWal → List (List WalEntry) → Cut
  | wal, [] => ⟨[], [], wal.file.length⟩
  | wal, tx :: transactions =>
      match wal.appendCommitted tx with
      | .ok wal' =>
          if wal'.file.length ≤ cut then
            let rest := cutOf cut wal' transactions
            { rest with kept := tx :: rest.kept }
          else ⟨[], tx, wal.file.length⟩
      | .error _ => ⟨[], [], wal.file.length⟩

theorem quiet_nil : Quiet cipher [] := by
  apply Quiet.ends
  cases cipher with
  | none => exact Nat.zero_le 4
  | some inner => exact Or.inl (by decide)

/-- The prefix is the records of the transactions that were kept and a part of those of
the next one. -/
theorem take_cutOf {transactions : List (List WalEntry)} {wal wal' : VectorWal} {cut : ℕ}
    (h : wal.appendAll transactions = .ok wal') (hle : wal.file.length ≤ cut) :
    ∃ bytes tail, wal'.file.take cut = wal.file ++ (bytes ++ tail) ∧
      Commits wal.cipher (cutOf cut wal transactions).kept bytes ∧
      (cutOf cut wal transactions).start = (wal.file ++ bytes).length ∧
      ((∀ entry ∈ (cutOf cut wal transactions).next, Sound wal.cipher entry) →
        (Quiet wal.cipher tail ↔ wal.cipher.isSome ∨
          ¬ CutsInside (cutOf cut wal transactions).next
            (cut - (cutOf cut wal transactions).start))) := by
  induction transactions generalizing wal with
  | nil =>
      cases h
      refine ⟨[], [], ?_, .nil, by rw [List.append_nil]; rfl, fun _ => ?_⟩
      · rw [List.take_of_length_le hle, List.append_nil, List.append_nil]
      · simp [quiet_nil, cutOf, CutsInside]
  | cons tx transactions ih =>
      unfold appendAll at h
      rw [List.foldlM_cons] at h
      obtain ⟨mid, hmid, h⟩ := bind_eq_ok.mp h
      obtain ⟨hcipher, records, commit, hfile, hrecords, hcommit⟩ := appendCommitted_ok hmid
      by_cases hin : mid.file.length ≤ cut
      · obtain ⟨bytes, tail, htake, hcommits, hstart, hquiet⟩ := ih h hin
        have hcut : cutOf cut wal (tx :: transactions) =
            { cutOf cut mid transactions with
              kept := tx :: (cutOf cut mid transactions).kept } := by
          rw [cutOf, hmid]
          exact if_pos hin
        rw [hcipher] at hcommits hquiet
        rw [hfile] at htake hstart
        refine ⟨records ++ commit ++ bytes, tail, ?_, ?_, ?_, ?_⟩
        · rw [htake]
          simp only [List.append_assoc]
        · rw [hcut]
          exact .cons hrecords hcommit hcommits
        · rw [hcut]
          simpa only [List.append_assoc] using hstart
        · rw [hcut]
          exact hquiet
      · have hcut : cutOf cut wal (tx :: transactions) = ⟨[], tx, wal.file.length⟩ := by
          rw [cutOf, hmid]
          exact if_neg hin
        obtain ⟨-, rest, hrest, -⟩ := appendAll_ok h
        have hshort : cut - wal.file.length < (records ++ commit).length := by
          rw [hfile, List.length_append] at hin
          omega
        refine ⟨[], (records ++ commit).take (cut - wal.file.length), ?_, ?_, ?_, ?_⟩
        · rw [hrest, hfile, List.append_assoc, List.take_append, List.take_of_length_le hle,
            List.take_append_of_le_length hshort.le, List.nil_append]
        · rw [hcut]
          exact .nil
        · rw [hcut, List.append_nil]
        · rw [hcut]
          intro hsound
          exact hrecords.quiet_take_iff hcommit hsound hshort

/-- What is read from the first `cut` bytes of the log of the transactions are those
whose commit entry lies in them. -/
def Recovers (cipher : Option Aes256Gcm) (nonces : ℕ → Nonce)
    (transactions : List (List WalEntry)) (cut : ℕ) : Prop :=
  ∀ wal, (create cipher nonces).appendAll transactions = .ok wal →
    (wal.cutAt cut).readCommitted = .ok (cutOf cut (create cipher nonces) transactions).kept

/-- When a prefix of a log of the transactions is read as it should.  The entries of the
transactions that are kept are sound.  So are those of the transaction that was cut, and a
plain log was not cut behind a tag; else what is left of it happens to be quiet. -/
def CleanCut (cipher : Option Aes256Gcm) (c : Cut) (cut : ℕ) (file : List UInt8) : Prop :=
  (∀ tx ∈ c.kept, ∀ entry ∈ tx, Sound cipher entry) ∧
    ((∀ entry ∈ c.next, Sound cipher entry) → cipher.isSome ∨ ¬ CutsInside c.next (cut - c.start)) ∧
    ((¬ ∀ entry ∈ c.next, Sound cipher entry) → Quiet cipher ((file.take cut).drop c.start))

/-- **A log that was cut gives back exactly the committed transactions of the prefix, if
and only if the cut is clean.** -/
theorem readCommitted_cutAt_iff (cipher : Option Aes256Gcm) (nonces : ℕ → Nonce)
    (hsize : ∀ inner, cipher = some inner → inner.TagSized)
    {transactions : List (List WalEntry)} {wal : VectorWal}
    (hwal : (create cipher nonces).appendAll transactions = .ok wal) (cut : ℕ) :
    Recovers cipher nonces transactions cut ↔
      CleanCut cipher (cutOf cut (create cipher nonces) transactions) cut wal.file := by
  obtain ⟨bytes, tail, htake, hcommits, hstart, hquiet⟩ := take_cutOf hwal (Nat.zero_le cut)
  have hread : Recovers cipher nonces transactions cut ↔
      Scans cipher [] (bytes ++ tail) (cutOf cut (create cipher nonces) transactions).kept := by
    unfold Recovers
    constructor
    · intro h
      have hscan := readCommitted_iff.mp (h wal hwal)
      rwa [cutAt, htake, (appendAll_ok hwal).1] at hscan
    · intro h wal' hwal'
      rw [hwal] at hwal'
      obtain rfl := Except.ok.inj hwal'
      rw [readCommitted_iff, cutAt, htake, (appendAll_ok hwal).1]
      exact h
  have htail : (wal.file.take cut).drop (cutOf cut (create cipher nonces) transactions).start =
      tail := by
    rw [htake, hstart, ← List.append_assoc, List.drop_left]
  rw [hread]
  unfold CleanCut
  rw [htail]
  generalize cutOf cut (create cipher nonces) transactions = c at hcommits hquiet ⊢
  have hscans : (∀ tx ∈ c.kept, ∀ entry ∈ tx, Sound cipher entry) →
      (Scans cipher [] (bytes ++ tail) c.kept ↔ Quiet cipher tail) := by
    intro hsound
    refine (hcommits.scans_iff hsound).trans ?_
    constructor
    · rintro ⟨more, hmore, hscan⟩
      rw [List.self_eq_append_right.mp hmore] at hscan
      exact scans_nil_iff.mp hscan
    · intro h
      exact ⟨[], (List.append_nil _).symm, scans_nil_iff.mpr h⟩
  constructor
  · intro h
    have hsound := h.sound hsize (by simp)
    have hrest := (hscans hsound).mp h
    exact ⟨hsound, fun hnext => (hquiet hnext).mp hrest, fun _ => hrest⟩
  · rintro ⟨hsound, hnext, hother⟩
    apply (hscans hsound).mpr
    by_cases h : ∀ entry ∈ c.next, Sound cipher entry
    · exact (hquiet h).mpr (hnext h)
    · exact hother h

theorem tagSized_aes256Gcm (key : List UInt8) : (aes256Gcm key).TagSized :=
  fun _ _ _ => AesGcm.length_of_decrypt

/-- An encrypted log that was cut inside of its commit entry, and a plain one that was
cut behind a tag. -/
theorem readCommitted_cutAt_iff_delete :
    Recovers (some (aes256Gcm (List.replicate 32 0))) zeroNonces [[.deleteNode 5]] 60 ∧
      ¬ Recovers none zeroNonces [[.deleteNode 5]] 8 := by
  constructor
  · have hok : ((create (some (aes256Gcm (List.replicate 32 0))) zeroNonces).appendAll
        [[.deleteNode 5]]).isOk = true := by decide +kernel
    have hcut : (cutOf 60 (create (some (aes256Gcm (List.replicate 32 0))) zeroNonces)
        [[.deleteNode 5]]).kept = [] ∧
      (cutOf 60 (create (some (aes256Gcm (List.replicate 32 0))) zeroNonces)
        [[.deleteNode 5]]).next = [.deleteNode 5] := by decide +kernel
    have hsound : ∀ entry ∈ [WalEntry.deleteNode 5],
        Sound (some (aes256Gcm (List.replicate 32 0))) entry := by
      intro entry hmem
      rw [List.mem_singleton.mp hmem]
      exact ⟨by decide, by decide, fun _ => by decide⟩
    cases hwal : (create (some (aes256Gcm (List.replicate 32 0))) zeroNonces).appendAll
        [[.deleteNode 5]] with
    | error e =>
        rw [hwal] at hok
        cases hok
    | ok wal =>
        apply (readCommitted_cutAt_iff _ _ _ hwal 60).mpr
        · refine ⟨?_, fun _ => Or.inl rfl, fun hnot => ?_⟩
          · rw [hcut.1]
            exact List.forall_mem_nil _
          · rw [hcut.2] at hnot
            exact absurd hsound hnot
        · intro inner hinner
          rw [← Option.some.inj hinner]
          exact tagSized_aes256Gcm _
  · rw [readCommitted_cutAt_iff none zeroNonces (by simp) rfl]
    rintro ⟨-, hnext, -⟩
    have hsound : ∀ entry ∈ (cutOf 8 (create none zeroNonces) [[.deleteNode 5]]).next,
        Sound none entry := by
      intro entry hmem
      rw [List.mem_singleton.mp hmem]
      exact ⟨by decide, by decide, fun h => by cases h⟩
    rcases hnext hsound with h | h
    · cases h
    · exact h (by decide)

/-- **A cut log is not always read.**  Four bytes behind the tag of a deletion are not
all there. -/
theorem not_recovers_always : ¬ ∀ (cipher : Option Aes256Gcm) (nonces : ℕ → Nonce)
    (transactions : List (List WalEntry)) (cut : ℕ), Recovers cipher nonces transactions cut := by
  intro h
  have hread := h none zeroNonces [[.deleteNode 5]] 8 _ rfl
  revert hread
  decide

end VectorWal

end BoogyDb
