import BoogyDb.Lib.Except
import BoogyDb.Wal

/-!
# What the log holds

`Holds file entries` says that the bytes of the file are a log whose header counts
`entries`, and that they stand behind it.  It does not say what stands behind them: an
entry that was written in part, or written and not counted, is not in the log.

Opening and reading such a file gives the entries (`Holds.read_back`), appending adds one
(`Logs.appendPageImage`), and a crash inside the append leaves the entries that were there
(`Logs.holds_torn`).  `Logs` is the same of an open log, with what it keeps in memory.
-/

namespace BoogyDb

open Bytes

namespace Wal

/-! ## Writing into the file -/

theorem length_writeAt (file : List UInt8) (offset : ℕ) (src : List UInt8) :
    (writeAt file offset src).length = max file.length (offset + src.length) := by
  rw [writeAt, length_blit, length_pad]

theorem slice_writeAt_before {file src : List UInt8} {offset start stop : ℕ}
    (h : stop ≤ offset) (hstop : stop ≤ file.length) :
    slice (writeAt file offset src) start stop = slice file start stop := by
  rw [writeAt, slice_blit_before h, slice_pad (le_max_left _ _) hstop]
  rw [length_pad]
  omega

theorem slice_writeAt_after {file src : List UInt8} {offset start stop : ℕ}
    (h : offset + src.length ≤ start) (hstop : stop ≤ file.length) :
    slice (writeAt file offset src) start stop = slice file start stop := by
  rw [writeAt, slice_blit_after h, slice_pad (le_max_left _ _) hstop]
  rw [length_pad]
  omega

theorem slice_writeAt_self (file : List UInt8) (offset : ℕ) (src : List UInt8) :
    slice (writeAt file offset src) offset (offset + src.length) = src := by
  apply slice_blit_self
  rw [length_pad]
  omega

/-! ## Entries -/

section

variable [Crc32Fast] {file file' : List UInt8} {seq : UInt64} {tableId : UInt32} {pageNo i : ℕ}
  {page : Page}

omit [Crc32Fast] in
@[simp] theorem length_entryBody :
    (entryBody seq tableId pageNo page).length = 16 + pageSize := by
  simp only [entryBody, List.length_append, length_leBytes, page.size]

@[simp] theorem length_entryBytes :
    (entryBytes seq tableId pageNo page).length = walEntrySize := by
  simp only [entryBytes, List.length_append, length_entryBody, length_leBytes, walEntrySize]

/-- The fields of an entry where `readEntry` looks for them. -/
theorem fields_entryBytes (seq : UInt64) (tableId : UInt32) (page : Page) (hpage : pageNo < 2 ^ 32) :
    readLe (entryBytes seq tableId pageNo page) 0 8 = seq.toNat ∧
      readLe (entryBytes seq tableId pageNo page) 8 4 = tableId.toNat ∧
      readLe (entryBytes seq tableId pageNo page) 12 4 = pageNo ∧
      slice (entryBytes seq tableId pageNo page) 16 (16 + pageSize) = page.data ∧
      slice (entryBytes seq tableId pageNo page) 0 (16 + pageSize) =
        entryBody seq tableId pageNo page ∧
      readLe (entryBytes seq tableId pageNo page) (16 + pageSize) 4 =
        (Crc32Fast.hash (entryBody seq tableId pageNo page)).toNat := by
  set seqBytes := leBytes 8 seq.toNat
  set tableBytes := leBytes 4 tableId.toNat
  set noBytes := leBytes 4 pageNo
  set crc := leBytes 4 (Crc32Fast.hash (entryBody seq tableId pageNo page)).toNat
  have hcut₀ : entryBytes seq tableId pageNo page =
      [] ++ (seqBytes ++ (tableBytes ++ (noBytes ++ (page.data ++ crc)))) := by
    rw [entryBytes, entryBody]
    simp only [List.append_assoc]
    rfl
  have hcut₁ : entryBytes seq tableId pageNo page =
      seqBytes ++ (tableBytes ++ (noBytes ++ (page.data ++ crc))) := hcut₀
  have hcut₂ : entryBytes seq tableId pageNo page =
      (seqBytes ++ tableBytes) ++ (noBytes ++ (page.data ++ crc)) := by
    rw [hcut₁, List.append_assoc]
  have hcut₃ : entryBytes seq tableId pageNo page =
      (seqBytes ++ tableBytes ++ noBytes) ++ (page.data ++ crc) := by
    rw [hcut₂, List.append_assoc]
    simp only [List.append_assoc]
  have hbody : entryBytes seq tableId pageNo page =
      [] ++ (entryBody seq tableId pageNo page ++ crc) := rfl
  have hcrc : entryBytes seq tableId pageNo page =
      entryBody seq tableId pageNo page ++ (crc ++ []) := by
    rw [hbody, List.append_nil, List.nil_append]
  have hseqLen : seqBytes.length = 8 := length_leBytes _ _
  have htableLen : tableBytes.length = 4 := length_leBytes _ _
  have hnoLen : noBytes.length = 4 := length_leBytes _ _
  refine ⟨?_, ?_, ?_, ?_, ?_, ?_⟩
  · exact readLe_eq_of_append hcut₀ rfl seq.toNat_lt
  · exact readLe_eq_of_append hcut₁ hseqLen.symm tableId.toNat_lt
  · refine readLe_eq_of_append hcut₂ ?_ hpage
    rw [List.length_append, hseqLen, htableLen]
  · refine slice_eq_of_append hcut₃ ?_ ?_
    · simp only [List.length_append, hseqLen, htableLen, hnoLen]
    · simp only [List.length_append, hseqLen, htableLen, hnoLen, page.size]
  · refine slice_eq_of_append hbody rfl ?_
    rw [length_entryBody, List.length_nil, Nat.zero_add]
  · refine readLe_eq_of_append hcrc ?_ (Crc32Fast.hash _).toNat_lt
    rw [length_entryBody]

/-- An entry that stands in its slot is read back. -/
theorem readEntry_of_slice (hpage : pageNo < 2 ^ 32)
    (hlen : walHeaderSize + i * walEntrySize + walEntrySize ≤ file.length)
    (h : slice file (walHeaderSize + i * walEntrySize)
      (walHeaderSize + i * walEntrySize + walEntrySize) = entryBytes seq tableId pageNo page) :
    readEntry file i = .ok ⟨seq, tableId, pageNo, page⟩ := by
  obtain ⟨hseq, htable, hno, hdata, hbody, hcrc⟩ :=
    fields_entryBytes seq tableId page hpage
  unfold readEntry
  rw [dif_pos hlen]
  simp only [h, hseq, htable, hno, hdata, hbody, hcrc]
  rw [if_neg (not_not.mpr rfl)]
  simp only [UInt64.ofNat_toNat, UInt32.ofNat_toNat]
  rfl

/-- Reading an entry looks at its own slot. -/
theorem readEntry_congr (hlen : walHeaderSize + i * walEntrySize + walEntrySize ≤ file.length)
    (hlen' : walHeaderSize + i * walEntrySize + walEntrySize ≤ file'.length)
    (h : slice file' (walHeaderSize + i * walEntrySize)
        (walHeaderSize + i * walEntrySize + walEntrySize) =
      slice file (walHeaderSize + i * walEntrySize)
        (walHeaderSize + i * walEntrySize + walEntrySize)) :
    readEntry file' i = readEntry file i := by
  unfold readEntry
  rw [dif_pos hlen, dif_pos hlen']
  simp only [h]

theorem le_length_of_readEntry {e : WalEntry} (h : readEntry file i = .ok e) :
    walHeaderSize + i * walEntrySize + walEntrySize ≤ file.length := by
  unfold readEntry at h
  by_contra hlen
  rw [dif_neg hlen] at h
  cases h

end

/-! ## Logs -/

section

variable [Crc32Fast] {file file' : List UInt8} {entries : List WalEntry} {wal wal' : Wal}

/-- The offset behind `n` entries. -/
def endOf (n : ℕ) : ℕ := walHeaderSize + n * walEntrySize

/-- The file has a whole header and the entries that it counts. -/
structure Holds (file : List UInt8) (entries : List WalEntry) : Prop where
  whole : walHeaderSize ≤ file.length
  magic : readLe file 0 4 = walMagic
  count : readLe file 8 4 = entries.length
  entry : ∀ (i : ℕ) (h : i < entries.length), readEntry file i = .ok entries[i]

/-- An open log that holds the entries. -/
structure Logs (wal : Wal) (entries : List WalEntry) : Prop where
  holds : Holds wal.file entries
  entryCount : wal.entryCount = entries.length
  nextSequence : wal.nextSequence = UInt64.ofNat entries.length + 1

theorem Holds.length_lt (h : Holds file entries) : entries.length < 2 ^ 32 := by
  rw [← h.count]
  exact readLe_lt file 8 4

theorem Holds.endOf_le (h : Holds file entries) : endOf entries.length ≤ file.length := by
  cases hn : entries.length with
  | zero =>
      rw [endOf, Nat.zero_mul, Nat.add_zero]
      exact h.whole
  | succ n =>
      have hlast := le_length_of_readEntry (h.entry n (by omega))
      rw [endOf, Nat.succ_mul]
      omega

/-- A log is opened with the entries it counts. -/
theorem Holds.open (h : Holds file entries) :
    ∃ wal, Wal.open file = .ok wal ∧ wal.Logs entries ∧ wal.file = file := by
  have hwhole := h.whole
  have hne : ¬ file.length = 0 := by
    rw [walHeaderSize] at hwhole
    omega
  refine ⟨⟨file, UInt64.ofNat (readLe file 8 4) + 1, readLe file 8 4⟩, ?_, ?_, rfl⟩
  · unfold Wal.open
    rw [if_neg hne, if_neg (by omega), if_neg (not_not.mpr h.magic)]
    rfl
  · exact ⟨h, h.count, by rw [h.count]⟩

theorem Logs.readEntries (h : wal.Logs entries) : wal.readEntries = .ok entries := by
  unfold Wal.readEntries
  rw [Except.mapM_range_eq_ok_iff, h.entryCount]
  exact ⟨rfl, h.holds.entry⟩

/-- What is in the log is found by the next process that opens it. -/
theorem Holds.read_back (h : Holds file entries) :
    ∃ wal, Wal.open file = .ok wal ∧ wal.readEntries = .ok entries := by
  obtain ⟨wal, hopen, hlogs, -⟩ := h.open
  exact ⟨wal, hopen, hlogs.readEntries⟩

omit [Crc32Fast] in
/-- Opening creates the log, or keeps the file. -/
theorem open_cases (h : Wal.open file = .ok wal) :
    file = [] ∧ wal = ⟨header 0, 1, 0⟩ ∨ file.length ≠ 0 ∧ wal.file = file := by
  unfold Wal.open at h
  split at h
  · rename_i hlen
    cases h
    exact .inl ⟨List.length_eq_zero_iff.mp hlen, rfl⟩
  · rename_i hlen
    split at h
    · cases h
    · split at h
      · cases h
      · cases h
        exact .inr ⟨hlen, rfl⟩

/-- The header of an empty log. -/
theorem holds_header : Holds (header 0) [] where
  whole := by simp [header, walHeaderSize]
  magic := by decide
  count := by decide
  entry i h := absurd h (Nat.not_lt_zero i)

/-- A log that can be opened and read holds what is read. -/
theorem logs_of_open (hopen : Wal.open file = .ok wal) (hread : wal.readEntries = .ok entries) :
    wal.Logs entries := by
  unfold Wal.readEntries at hread
  rw [Except.mapM_range_eq_ok_iff] at hread
  obtain ⟨hlen, hentry⟩ := hread
  unfold Wal.open at hopen
  split at hopen
  · cases hopen
    obtain rfl := List.length_eq_zero_iff.mp hlen
    exact ⟨holds_header, rfl, rfl⟩
  · split at hopen
    · cases hopen
    · split at hopen
      · cases hopen
      · rename_i hwhole hmagic
        cases hopen
        exact ⟨⟨Nat.le_of_not_lt hwhole, not_not.mp hmagic, hlen.symm, hentry⟩, hlen.symm,
          by rw [hlen]⟩

/-! ### Appending -/

/-- A change behind the last entry is not seen. -/
theorem Holds.of_slice (h : Holds file entries) (hlen : endOf entries.length ≤ file'.length)
    (hslice : ∀ start stop, stop ≤ endOf entries.length →
      slice file' start stop = slice file start stop) : Holds file' entries := by
  have hend : walHeaderSize ≤ endOf entries.length := Nat.le_add_right _ _
  have hfour : 4 ≤ walHeaderSize := by decide
  have htwelve : 12 ≤ walHeaderSize := by decide
  constructor
  · exact hend.trans hlen
  · rw [readLe, hslice 0 (0 + 4) (hfour.trans hend)]
    exact h.magic
  · rw [readLe, hslice 8 (8 + 4) (htwelve.trans hend)]
    exact h.count
  · intro i hi
    have hstop : walHeaderSize + i * walEntrySize + walEntrySize ≤ endOf entries.length := by
      have hmul : (i + 1) * walEntrySize ≤ entries.length * walEntrySize :=
        Nat.mul_le_mul_right _ hi
      rw [endOf]
      linarith [Nat.succ_mul i walEntrySize]
    rw [← h.entry i hi]
    exact readEntry_congr (hstop.trans h.endOf_le) (hstop.trans hlen) (hslice _ _ hstop)

/-- A crash while an entry is written, or before it is counted. -/
theorem Holds.writeAt_end (h : Holds file entries) (src : List UInt8) :
    Holds (writeAt file (endOf entries.length) src) entries := by
  apply h.of_slice
  · rw [length_writeAt]
    exact h.endOf_le.trans (le_max_left _ _)
  · intro start stop hstop
    exact slice_writeAt_before hstop (hstop.trans h.endOf_le)

/-- The file as a crash inside `append_page_image` leaves it: some of the bytes of the
entry are written, and the count is not updated. -/
theorem Logs.holds_torn (h : wal.Logs entries) (seq : UInt64) (tableId : UInt32) (pageNo : ℕ)
    (page : Page) (k : ℕ) :
    Holds (writeAt wal.file (walHeaderSize + wal.entryCount * walEntrySize)
      ((entryBytes seq tableId pageNo page).take k)) entries := by
  rw [h.entryCount]
  exact h.holds.writeAt_end _

/-- Counting an entry that stands in the next slot. -/
theorem Holds.counted {e : WalEntry} (h : Holds file entries) (hcount : entries.length + 1 < 2 ^ 32)
    (hentry : readEntry file entries.length = .ok e) :
    Holds (writeAt file 8 (leBytes 4 (entries.length + 1))) (entries ++ [e]) := by
  have hlast := le_length_of_readEntry hentry
  have hwhole := h.whole
  have hsize : walHeaderSize = 16 := rfl
  have hlen : (writeAt file 8 (leBytes 4 (entries.length + 1))).length = file.length := by
    rw [length_writeAt, length_leBytes]
    omega
  have hafter : ∀ i : ℕ, walHeaderSize + i * walEntrySize + walEntrySize ≤ file.length →
      readEntry (writeAt file 8 (leBytes 4 (entries.length + 1))) i = readEntry file i := by
    intro i hi
    apply readEntry_congr hi (hi.trans hlen.ge)
    apply slice_writeAt_after _ hi
    rw [length_leBytes]
    omega
  constructor
  · exact hwhole.trans hlen.ge
  · rw [readLe, slice_writeAt_before (by omega) (by omega)]
    exact h.magic
  · have hself := slice_writeAt_self file 8 (leBytes 4 (entries.length + 1))
    rw [length_leBytes] at hself
    rw [readLe, hself, leNat_leBytes_of_lt hcount, List.length_append]
    rfl
  · intro i hi
    rcases Nat.lt_or_ge i entries.length with hlt | hge
    · rw [List.getElem_append_left hlt, hafter i (le_length_of_readEntry (h.entry i hlt))]
      exact h.entry i hlt
    · have hi' : i = entries.length := by
        rw [List.length_append, List.length_singleton] at hi
        omega
      subst hi'
      rw [List.getElem_concat_length rfl, hafter _ hlast]
      exact hentry

/-- An append that completes adds its entry. -/
theorem Logs.appendPageImage {tableId : UInt32} {pageNo : ℕ} {page : Page} {seq : UInt64}
    (h : wal.Logs entries) (hpage : pageNo < 2 ^ 32)
    (happend : Wal.appendPageImage tableId pageNo page wal = .ok seq wal') :
    wal'.Logs (entries ++ [⟨seq, tableId, pageNo, page⟩]) ∧ seq = wal.nextSequence := by
  unfold Wal.appendPageImage at happend
  split at happend
  · cases happend
  · split at happend
    · cases happend
    · rename_i hfull _
      cases happend
      rw [h.entryCount] at hfull
      have hcount : entries.length + 1 < 2 ^ 32 := by
        have hlt := h.holds.length_lt
        omega
      refine ⟨⟨?_, ?_, ?_⟩, rfl⟩
      · have hwritten := h.holds.writeAt_end (entryBytes wal.nextSequence tableId pageNo page)
        have hslot := slice_writeAt_self wal.file (endOf entries.length)
          (entryBytes wal.nextSequence tableId pageNo page)
        rw [length_entryBytes] at hslot
        simp only [updateEntryCount, h.entryCount]
        refine hwritten.counted hcount (readEntry_of_slice hpage ?_ hslot)
        rw [length_writeAt, length_entryBytes, endOf]
        exact le_max_right _ _
      · simp only [updateEntryCount, h.entryCount, List.length_append, List.length_singleton]
      · simp only [updateEntryCount, h.nextSequence, List.length_append, List.length_singleton]
        rw [UInt64.ofNat_add]
        rfl

/-- The entries that were appended to a log, in their order. -/
inductive Appended (wal : Wal) : List WalEntry → Wal → Prop
  | refl : Appended wal [] wal
  | append {entries : List WalEntry} {wal₁ wal₂ : Wal} {tableId : UInt32} {pageNo : ℕ} {page : Page}
      {seq : UInt64} (h : Appended wal entries wal₁) (hpage : pageNo < 2 ^ 32)
      (happend : Wal.appendPageImage tableId pageNo page wal₁ = .ok seq wal₂) :
      Appended wal (entries ++ [⟨seq, tableId, pageNo, page⟩]) wal₂

theorem Appended.logs (happ : Appended wal entries wal') (h : wal.Logs []) : wal'.Logs entries := by
  induction happ with
  | refl => exact h
  | append happ hpage happend ih => exact (ih.appendPageImage hpage happend).1

/-- The log of a process: it was empty when it was opened. -/
def Running (wal : Wal) (entries : List WalEntry) : Prop :=
  ∃ file wal₀, Wal.open file = .ok wal₀ ∧ wal₀.readEntries = .ok [] ∧ Appended wal₀ entries wal

theorem Running.logs (h : wal.Running entries) : wal.Logs entries := by
  obtain ⟨file, wal₀, hopen, hread, happ⟩ := h
  exact happ.logs (logs_of_open hopen hread)

/-! ### Truncating -/

/-- Cutting an empty log. -/
theorem Holds.cut (h : Holds file []) : Holds (pad walHeaderSize file) [] := by
  have hwhole := h.whole
  have hsize : walHeaderSize = 16 := rfl
  constructor
  · rw [length_pad]
  · rw [readLe, slice_pad_of_le (by omega) (by omega)]
    exact h.magic
  · rw [readLe, slice_pad_of_le (by omega) (by omega)]
    exact h.count
  · exact fun i hi => absurd hi (Nat.not_lt_zero i)

/-- After the count is reset the log is empty. -/
theorem Holds.truncate (h : Holds wal.file entries) : wal.truncate.Logs [] := by
  have hwhole := h.whole
  have hsize : walHeaderSize = 16 := rfl
  have hlen : (pad walHeaderSize wal.file).length = 16 := length_pad _ _
  refine ⟨⟨?_, ?_, ?_, fun i hi => absurd hi (Nat.not_lt_zero i)⟩, rfl, rfl⟩
  · simp only [Wal.truncate, updateEntryCount]
    rw [length_writeAt, hlen]
    exact le_max_left _ _
  · simp only [Wal.truncate, updateEntryCount]
    rw [readLe, slice_writeAt_before (by omega) (by omega), slice_pad_of_le (by omega) (by omega)]
    exact h.magic
  · have hself := slice_writeAt_self (pad walHeaderSize wal.file) 8 (leBytes 4 0)
    rw [length_leBytes] at hself
    simp only [Wal.truncate, updateEntryCount]
    rw [readLe, hself, leNat_leBytes_of_lt (by omega)]
    rfl

end

end Wal

end BoogyDb
